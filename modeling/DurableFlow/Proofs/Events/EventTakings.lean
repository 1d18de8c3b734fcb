import DurableFlow.Proofs.Events.EventPassing
import DurableFlow.Proofs.Families.Descendants
import DurableFlow.Proofs.Histories.Stories
import Mathlib.Algebra.BigOperators.Group.Multiset.Basic

/-!
# Who takes an event

An event is delivered to one instance. Each context that holds it can give it away once, to the step
that takes it; but a step that starts a nested run may hand the event on and keep it all the same.
Main statement: what the family of a run has taken in the course of a history is not more than the
event that was delivered to it and those that it has handed on (`Engine.IsNew.takings_le`). So one
step takes the event at most, unless it is handed on; if it is, two may
(`EventHandedOn.taken_twice`).
-/

namespace DurableFlow

/-- The events that a frame holds. -/
def Frame.events : Frame → Multiset Event
  | .opening _ q _ => (q.event.toList : List Event)
  | .driving _ c _ => (c.context.event.toList : List Event)
  | _ => 0

/-- The events that some frames hold. -/
def Frame.eventsOf (fs : List Frame) : Multiset Event := (fs.map Frame.events).sum

/-- The events that a member holds. -/
def Member.events : Member → Multiset Event
  | .task t => Frame.eventsOf t.frames
  | .timer x => (x.work.chain.context.event.toList : List Event)

/-- The event that the innermost step of a task has taken when it returns. -/
def Task.taken (t : Task) : Multiset Event :=
  match t.frames with
  | .driving _ c (.inside _ (.finish context _)) :: _ =>
    if context.event.isSome then 0 else (c.context.event.toList : List Event)
  | _ => 0

/-- The event that the innermost step of a task hands to a nested run. -/
def Task.handed (t : Task) : Multiset Event :=
  match t.frames with
  | .driving _ _ (.inside _ (.launch _ _ q _)) :: _ => (q.event.toList : List Event)
  | _ => 0

namespace Frame

@[simp] theorem eventsOf_nil : eventsOf [] = 0 := rfl

@[simp] theorem eventsOf_cons (f : Frame) (fs : List Frame) :
    eventsOf (f :: fs) = f.events + eventsOf fs := by
  simp [eventsOf]

@[simp] theorem eventsOf_append (fs gs : List Frame) :
    eventsOf (fs ++ gs) = eventsOf fs + eventsOf gs := by
  simp [eventsOf]

theorem eventsOf_resumed_le (reply : Reply) (below : List Frame) :
    eventsOf (resumed reply below) ≤ eventsOf below := by
  unfold resumed
  split
  · simp [events]
  · exact Multiset.zero_le _

theorem eventsOf_departed_le (o : Origin) (reply : Reply) (below : List Frame) :
    eventsOf (departed o reply below) ≤ eventsOf below := by
  unfold departed
  split
  · simp [events]
  · exact eventsOf_resumed_le reply below

end Frame

/-- A task that does nothing by itself takes nothing, if it waits whenever it is parked. -/
theorem Task.taken_of_isIdle {t : Task} (h : t.isIdle = true)
    (hwaiting : t.parked = true → t.isWaiting = true) : t.taken = 0 := by
  unfold taken
  split
  · rename_i hframes
    have hparked : t.parked = true := by
      simpa [isIdle, hframes, Frame.isWaiting, Frame.isCalling] using h
    simpa [isWaiting, hframes, Frame.isWaiting] using hwaiting hparked
  · rfl

/-- Where a chain of discreet steps goes on, its context has lost what the step has taken. -/
theorem Task.Sound.leaves_add_taken_le {t : Task} (h : t.Sound .discreet) {o : Origin} {c : Chain}
    {stage : Stage} {below : List Frame} (hf : t.frames = .driving o c stage :: below) :
    ((stage.leaves c.context).event.toList : Multiset Event) + t.taken ≤
      (c.context.event.toList : List Event) := by
  by_cases hreturns : ∃ i context outcome, stage = .inside i (.finish context outcome)
  · obtain ⟨i, context, outcome, rfl⟩ := hreturns
    obtain ⟨hdiscreet, hwithin⟩ : c.definition.IsDiscreet ∧
        c.definition.Within i c.context (.finish context outcome) :=
      h.frames (.driving o c (.inside i (.finish context outcome))) (hf ▸ List.mem_cons_self)
    show (context.event.toList : Multiset Event) + t.taken ≤ _
    obtain hevent | hnone := hdiscreet.within hwithin
    · have htaken : t.taken = 0 := by
        cases hc : c.context.event <;> simp [Task.taken, hf, hevent, hc]
      rw [htaken, hevent, add_zero]
    · have htaken : t.taken = (c.context.event.toList : List Event) := by
        simp [Task.taken, hf, hnone]
      rw [htaken, hnone]
      exact (zero_add _).le
  · have hleaves : stage.leaves c.context = c.context := by
      unfold Stage.leaves
      split
      · exact absurd ⟨_, _, _, rfl⟩ hreturns
      · rfl
    have htaken : t.taken = 0 := by
      unfold Task.taken
      split
      · rename_i hframes
        cases hf.symm.trans hframes
        exact absurd ⟨_, _, _, rfl⟩ hreturns
      · rfl
    rw [hleaves, htaken, add_zero]

/-- A discreet request seeds a context that holds the event of the request. -/
theorem Request.IsDiscreet.seed {q : Request} (h : q.IsDiscreet) (id : RunnerId) (r : Runner)
    (d : Definition) (inst : String) : (Engine.seed id r d inst q).context.event = q.event := by
  unfold Engine.seed
  dsimp only
  cases hevent : q.event with
  | some event => rfl
  | none =>
    cases hinit : q.init with
    | some init => exact h init hinit _ (by split <;> rfl)
    | none => dsimp only; split <;> rfl

namespace Engine

variable {e : Engine} {t : Task} {ds : List (Chain × Deed)} {rested : Option (Timer Continuation)}
  {frames : List Frame} {own : Nat → Bool} {a : Act} {as bs : List Act}

/-- **A turn makes up no event.** What is held afterwards and what has been taken was held before,
or is handed on. -/
theorem Turns.events_le (h : e.Turns t ds rested frames) (hsound : t.Sound .discreet)
    (hwaiting : t.parked = true → t.isWaiting = true) :
    Frame.eventsOf frames + ((Member.timers rested.toList).map Member.events).sum + t.taken ≤
      Frame.eventsOf t.frames + t.handed := by
  -- Unless the innermost step returns, nothing is taken.
  have untaken : ∀ {fs : List Frame}, t.taken = 0 → Frame.eventsOf fs ≤ Frame.eventsOf t.frames →
      Frame.eventsOf fs + 0 + t.taken ≤ Frame.eventsOf t.frames + t.handed := by
    intro fs htaken hle
    rw [htaken, add_zero, add_zero]
    exact hle.trans (Multiset.le_add_right _ _)
  have below : ∀ {f : Frame} {below fs : List Frame}, t.frames = f :: below → t.taken = 0 →
      Frame.eventsOf fs ≤ Frame.eventsOf below →
      Frame.eventsOf fs + 0 + t.taken ≤ Frame.eventsOf t.frames + t.handed := by
    intro f below fs hf htaken hle
    refine untaken htaken (hle.trans ?_)
    rw [hf, Frame.eventsOf_cons]
    exact Multiset.le_add_left _ _
  cases h with
  | look hidle => exact untaken (Task.taken_of_isIdle hidle hwaiting) le_rfl
  | abandon hf hs hp hc =>
    have hidle : t.isIdle = true := by simp [Task.isIdle, hp]
    refine untaken (Task.taken_of_isIdle hidle hwaiting) ?_
    rw [hf, Frame.eventsOf_append]
    exact Multiset.le_add_left _ _
  | decline hf =>
    exact below hf (by simp [Task.taken, hf]) (Frame.eventsOf_resumed_le _ _)
  | @start r q resuming rest id d inst c i hf hc hcontext =>
    have hq : q.IsDiscreet := hsound.frames (.opening r q resuming) (hf ▸ List.mem_cons_self)
    refine untaken (by simp [Task.taken, hf]) ?_
    rw [hf, Frame.eventsOf_cons, Frame.eventsOf_cons, Frame.events, Frame.events, hcontext,
      hq.seed]
  | stay hf hb =>
    refine untaken ?_ ?_
    · cases hb <;> simp [Task.taken, hf]
    · rw [hf, Frame.eventsOf_cons, Frame.eventsOf_cons, Frame.events, Frame.events]
  | @launch o c i context r q next rest hf =>
    have htaken : t.taken = 0 := by simp [Task.taken, hf]
    have hhanded : t.handed = (q.event.toList : List Event) := by simp [Task.handed, hf]
    rw [htaken, hhanded, hf, add_zero]
    refine le_of_eq ?_
    show Frame.eventsOf (.opening r q false :: .driving o c (.calling i next) :: rest) + 0 = _
    rw [Frame.eventsOf_cons, Frame.eventsOf_cons, Frame.eventsOf_cons, add_zero, add_comm]
    rfl
  | go hf _ _ hcontext _ =>
    refine le_trans ?_ (Multiset.le_add_right _ _)
    rw [hf, Frame.eventsOf_cons, Frame.eventsOf_cons, Frame.events, Frame.events, hcontext]
    show _ + _ + 0 + _ ≤ _
    rw [add_zero, add_right_comm]
    exact add_le_add_left (hsound.leaves_add_taken_le hf) _
  | @rest o c next due below reply hf =>
    have htaken : t.taken = 0 := by simp [Task.taken, hf]
    rw [htaken, hf, Frame.eventsOf_cons, add_zero]
    refine le_trans ?_ (Multiset.le_add_right _ _)
    rw [add_comm]
    refine add_le_add ?_ (Frame.eventsOf_departed_le _ _ _)
    simp [Member.events, Frame.events]
  | stop hf => exact below hf (by simp [Task.taken, hf]) (Frame.eventsOf_departed_le _ _ _)
  | halt hf => exact below hf (by simp [Task.taken, hf]) (Frame.eventsOf_resumed_le _ _)
  | panic hf => exact below hf (by simp [Task.taken, hf]) (Frame.eventsOf_resumed_le _ _)
  | receive hf => exact below hf (by simp [Task.taken, hf]) (Frame.eventsOf_resumed_le _ _)

/-! ## What a family holds -/

/-- The events that the members of a family hold. -/
def holdings (own : Nat → Bool) (M : Multiset Member) : Multiset Event :=
  (M.map fun m => if own m.number then m.events else 0).sum

@[simp] theorem holdings_zero (own : Nat → Bool) : holdings own 0 = 0 := rfl

@[simp] theorem holdings_cons (own : Nat → Bool) (m : Member) (M : Multiset Member) :
    holdings own (m ::ₘ M) = (if own m.number then m.events else 0) + holdings own M := by
  simp [holdings]

@[simp] theorem holdings_add (own : Nat → Bool) (M N : Multiset Member) :
    holdings own (M + N) = holdings own M + holdings own N := by
  simp [holdings]

theorem holdings_of_own {M : Multiset Member} (h : ∀ m ∈ M, own m.number = true) :
    holdings own M = (M.map Member.events).sum := by
  rw [holdings, Multiset.map_congr rfl fun m hm => if_pos (h m hm)]

theorem holdings_of_not_own {M : Multiset Member} (h : ∀ m ∈ M, own m.number = false) :
    holdings own M = 0 := by
  rw [holdings, Multiset.map_congr rfl fun m hm => if_neg (by simp [h m hm])]
  simp

/-- What a task of a family does with events when it is taken on. -/
def ofTask (own : Nat → Bool) (f : Task → Multiset Event) (e : Engine) : Act → Multiset Event
  | .advance n => if own n then ((e.task? n).map f).getD 0 else 0
  | _ => 0

/-- The event that is delivered to a family by an act. -/
def given (own : Nat → Bool) (e : Engine) (a : Act) : Multiset Event :=
  match a.opening? with
  | some (_, f) => if own e.next then f.events else 0
  | none => 0

/-- The events that are counted for the acts of a history. -/
def tally (f : Engine → Act → Multiset Event) (e : Engine) : List Act → Multiset Event
  | [] => 0
  | a :: as => f e a + (e.act a).tally f as

/-- The events that the steps of a family take in the course of a history. -/
def takings (own : Nat → Bool) (e : Engine) (as : List Act) : Multiset Event :=
  e.tally (ofTask own Task.taken) as

/-- The events that the steps of a family hand to nested runs in the course of a history. -/
def handings (own : Nat → Bool) (e : Engine) (as : List Act) : Multiset Event :=
  e.tally (ofTask own Task.handed) as

theorem tally_append (f : Engine → Act → Multiset Event) (e : Engine) (as bs : List Act) :
    e.tally f (as ++ bs) = e.tally f as + (e.after as).tally f bs := by
  induction as generalizing e with
  | nil => simp [tally]
  | cons a as ih => simp only [List.cons_append, tally, ih, after_cons, add_assoc]

theorem tally_eq_zero {f : Engine → Act → Multiset Event}
    (h : ∀ before a after, as = before ++ a :: after → f (e.after before) a = 0) :
    e.tally f as = 0 := by
  induction as generalizing e with
  | nil => rfl
  | cons a as ih =>
    have hzero : f e a = 0 := h [] a as rfl
    rw [tally, hzero, ih fun before b after has => h (a :: before) b after (by simp [has])]
    rfl

/-- **An act makes up no event.** -/
theorem Alters.holdings_le {N M : Multiset Member} (h : e.Alters a ds N M) (hN : N = e.members)
    (hsound : e.Sound .discreet) (hwaiting : ∀ t ∈ e.tasks, t.parked = true → t.isWaiting = true)
    (hinherits : e.Inherits own a) :
    holdings own M + ofTask own Task.taken e a ≤
      given own e a + holdings own N + ofTask own Task.handed e a := by
  cases h with
  | keep hidle =>
    have htaken : ofTask own Task.taken e a = 0 := by
      unfold ofTask
      split
      · rename_i n
        cases ht : e.task? n with
        | none => simp
        | some t =>
          have hwaits := hwaiting t (task?_eq_some ht).1
          simp [Task.taken_of_isIdle (hidle n t rfl ht) hwaits]
      · rfl
    rw [htaken, add_zero, add_right_comm]
    exact Multiset.le_add_left _ _
  | @turn t _ rested left R h hdrawn =>
    have ht : t ∈ e.tasks := mem_tasks_of_members (hN ▸ Multiset.mem_cons_self _ _)
    have htask := hsound.task?_of_mem ht
    have hnumbers : ∀ m ∈ Member.tasks left.toList + Member.timers rested.toList,
        own m.number = own t.number := by
      intro m hm
      rcases Multiset.mem_add.1 hm with hm | hm
      · obtain ⟨t', ht', rfl⟩ := Member.mem_tasks.1 hm
        exact congrArg own (h.number t' (Option.mem_toList.1 ht'))
      · obtain ⟨x, hx, rfl⟩ := Member.mem_timers.1 hm
        have hx := Option.mem_toList.1 hx
        obtain ⟨-, hdelay⟩ := h.turns.of_rested x hx
        show own x.work.delay = own t.number
        rw [hdelay]
        exact hinherits.drawn t.number rfl (hdrawn (Option.isSome_of_mem hx))
    rw [holdings_add, holdings_cons, show given own e (.advance t.number) = 0 from rfl, zero_add]
    cases htown : own t.number with
    | true =>
      have hle := h.turns.events_le (hsound.tasks t ht) (hwaiting t ht)
      have hleft : ((Member.tasks left.toList).map Member.events).sum =
          Frame.eventsOf (left.elim [] Task.frames) := by
        cases left <;> simp [Member.events]
      rw [holdings_of_own fun m hm => (hnumbers m hm).trans htown, Multiset.map_add,
        Multiset.sum_add, hleft]
      simp only [ofTask, Member.number, htown, htask, if_true, Option.map_some, Option.getD_some]
      calc _ = Frame.eventsOf (left.elim [] Task.frames) +
            ((Member.timers rested.toList).map Member.events).sum + t.taken + holdings own R :=
            add_right_comm _ _ _
        _ ≤ Frame.eventsOf t.frames + t.handed + holdings own R := add_le_add_left hle _
        _ = _ := add_right_comm _ _ _
    | false =>
      rw [holdings_of_not_own fun m hm => (hnumbers m hm).trans htown]
      simp [ofTask, Member.number, htown]
  | @start a token f M ha hdrawn =>
    have hgiven : given own e a = if own e.next then f.events else 0 := by simp [given, ha]
    have htaken : ofTask own Task.taken e a = 0 := by cases a <;> first | rfl | cases ha
    rw [holdings_cons, hgiven, htaken, add_zero]
    refine le_trans (le_of_eq ?_) (Multiset.le_add_right _ _)
    simp [Member.number, Member.events]
  | drop hx =>
    simp only [ofTask, given, Act.opening?, holdings_cons, add_zero, zero_add]
    exact Multiset.le_add_left _ _
  | cut =>
    simp only [ofTask, given, Act.opening?, holdings_cons, add_zero, zero_add]
    exact Multiset.le_add_left _ _

/-- A chain that goes on after a delay holds what it held while it rested. -/
theorem events_task (x : Timer Continuation) (n : Nat) :
    (Member.task (x.task n)).events = (Member.timer x).events :=
  (Frame.eventsOf_cons _ _).trans (add_zero _)

theorem Passage.holdings_eq {M R : Multiset Member} {woken : Option (Timer Continuation)}
    (h : e.Passage a M R woken) (hmarked : e.IsMarked) (hinherits : e.Inherits own a) :
    holdings own (e.act a).members = holdings own M := by
  rw [h.members, h.resting]
  cases hx : woken with
  | none => rfl
  | some x =>
    have hwoken : x.task ((e.act a).next - 1) ∈ e.woken? a := by
      rw [h.woken?_eq hmarked, hx]
      rfl
    have hown : own (Member.task (x.task ((e.act a).next - 1))).number =
        own (Member.timer x).number := by
      show own ((e.act a).next - 1) = own x.work.delay
      rw [← (h.delay_lt hmarked hx).1]
      exact hinherits.woken _ hwoken
    simp only [Option.toList_some, List.map_cons, List.map_nil, Member.tasks_cons,
      Member.tasks_nil, Member.timers_cons, Member.timers_nil, holdings_add, holdings_cons,
      events_task, hown]

/-- What a family holds and has taken was delivered to it, or it has handed it on. -/
theorem IsNew.holdings_le (h : e.IsNew) (hmeets : ∀ a ∈ as, a.Meets .discreet)
    (hown : e.IsHereditary own as) :
    holdings own (e.after as).members + e.takings own as ≤
      e.tally (given own) as + e.handings own as := by
  induction as using List.reverseRecOn with
  | nil => simp [h.members_eq, takings, handings, tally]
  | append_singleton as a ih =>
    have ih := ih (fun b hb => hmeets b (List.mem_append_left _ hb)) hown.left
    have hsound : (e.after as).Sound .discreet :=
      (h.sound .discreet).after fun b hb => hmeets b (List.mem_append_left _ hb)
    have hmarked : (e.after as).IsMarked := (h.sound .any).isMarked_after h.isMarked as
    have hinherits : (e.after as).Inherits own a := hown as a [] rfl
    obtain ⟨M, R, woken, hpassage⟩ := hsound.passage a
    have hact := hpassage.alters.holdings_le rfl hsound (fun t ht => h.isWaiting as ht) hinherits
    rw [← hpassage.holdings_eq hmarked hinherits] at hact
    rw [takings, handings] at ih ⊢
    rw [tally_append, tally_append, tally_append, after_concat]
    simp only [tally, add_zero]
    generalize ofTask own Task.taken (e.after as) a = taken at hact ⊢
    generalize ofTask own Task.handed (e.after as) a = handed at hact ⊢
    generalize given own (e.after as) a = given₁ at hact ⊢
    calc _ = holdings own ((e.after as).act a).members + taken +
          e.tally (ofTask own Task.taken) as := by abel
      _ ≤ given₁ + holdings own (e.after as).members + handed +
          e.tally (ofTask own Task.taken) as := add_le_add_left hact _
      _ = holdings own (e.after as).members + e.tally (ofTask own Task.taken) as +
          (given₁ + handed) := by abel
      _ ≤ e.tally (given own) as + e.tally (ofTask own Task.handed) as + (given₁ + handed) :=
        add_le_add_left ih _
      _ = _ := by abel

/-- Nothing is delivered to the family of a run but with the run. -/
theorem Sound.given_eq_zero (h : e.Sound .any) (hmarked : e.IsMarked)
    {before after before' after' : List Act} {a' : Act} {τ : Token} {f : Frame}
    (hrun : as = before ++ a :: after) (ha : a.opening? = some (τ, f))
    (has : as = before' ++ a' :: after') (hne : before' ≠ before) :
    given (e.family (· == (e.after before).next) as) (e.after before') a' = 0 := by
  unfold given
  split
  · rename_i token f' ha'
    refine if_neg fun hown => hne ?_
    rw [has, h.family_of_opening hmarked _ ha'] at hown
    exact h.opening_unique (has ▸ hrun) ha' ha (beq_iff_eq.1 hown)
  · rfl

theorem Sound.tally_given (h : e.Sound .any) (hmarked : e.IsMarked) {before after : List Act}
    {τ : Token} {f : Frame} (hrun : as = before ++ a :: after) (ha : a.opening? = some (τ, f)) :
    e.tally (given (e.family (· == (e.after before).next) as)) as = f.events := by
  have hzero : ∀ before' a' after', as = before' ++ a' :: after' → before' ≠ before →
      given (e.family (· == (e.after before).next) as) (e.after before') a' = 0 :=
    fun _ _ _ => h.given_eq_zero hmarked hrun ha
  have hown : e.family (· == (e.after before).next) as (e.after before).next = true := by
    rw [hrun, h.family_of_opening hmarked _ ha]
    exact beq_self_eq_true _
  generalize e.family (· == (e.after before).next) as = own at hzero hown ⊢
  rw [hrun, tally_append, tally, tally_eq_zero, tally_eq_zero, zero_add, add_zero]
  · simp [given, ha, hown]
  · intro before' a' after' hafter
    have hne : before ++ a :: before' ≠ before := fun heq => by simpa using congrArg List.length heq
    rw [← after_cons, ← after_append]
    exact hzero _ a' after' (by rw [hrun, hafter]; simp) hne
  · intro before' a' after' hbefore
    have hne : before' ≠ before := fun heq => by simpa [heq] using congrArg List.length hbefore
    exact hzero before' a' (after' ++ a :: after) (by rw [hrun, hbefore]; simp) hne

/-- **What a family takes was delivered to it, or it has handed it on.** In the family of a run that
is started in the course of a history, the events that steps have taken are not more than the one
with which the run was started and those that steps have handed to nested runs; one at most, unless
a step has handed it on. -/
theorem IsNew.takings_le (h : e.IsNew) (hmeets : ∀ a ∈ as, a.Meets .discreet)
    {before after : List Act} {τ : Token} {r : RunnerId} {q : Request} {resuming : Bool}
    (hrun : as = before ++ a :: after) (ha : a.opening? = some (τ, .opening r q resuming)) :
    e.takings (e.family (· == (e.after before).next) as) as ≤
        (q.event.toList : List Event) + e.handings (e.family (· == (e.after before).next) as) as ∧
      (e.handings (e.family (· == (e.after before).next) as) as = 0 →
        (e.takings (e.family (· == (e.after before).next) as) as).card ≤ 1) := by
  have hsound := h.sound .any
  have hgiven := hsound.tally_given h.isMarked hrun ha
  have hle := h.holdings_le hmeets
    (hsound.isHereditary_family h.isMarked (· == (e.after before).next) as)
  rw [hgiven] at hle
  have htakings : e.takings _ as ≤ (q.event.toList : List Event) + e.handings _ as :=
    le_trans (Multiset.le_add_left _ _) hle
  refine ⟨htakings, fun hnone => ?_⟩
  rw [hnone, add_zero] at htakings
  refine (Multiset.card_le_card htakings).trans ?_
  cases q.event <;> simp

end Engine

namespace EventHandedOn

/-- A workflow that waits for an event. -/
def child : Definition := ⟨"child", [.waitForEvent "go"]⟩

/-- A workflow that starts the other one, hands its event on, and then waits for the event too. -/
def parent : Definition :=
  ⟨"parent",
    [Nested.step { workflow := "child", inst := some fun _ => .ok "c" }, .waitForEvent "go"]⟩

def registry : Registry := ⟨(Table.empty.put "parent" parent).put "child" child⟩

def event : Event := ⟨"go", .null⟩

/-- A run of the parent, which parks. -/
def begun : List Act :=
  [.addRunner registry .empty, .run ⟨0⟩ (.root 0) { workflow := "parent", inst := some "p" }] ++
    .replicate 17 (.advance 2)

/-- The parent is resumed with the event. -/
def acts : List Act :=
  begun ++ .resume ⟨0⟩ (.root 1) "parent" "p" event :: .replicate 25 (.advance 5)

theorem isDiscreet_child : child.IsDiscreet := by
  intro s hs
  rw [List.mem_singleton.1 hs]
  exact Step.isDiscreet_waitForEvent _ _

theorem isDiscreet_parent : parent.IsDiscreet := by
  intro s hs
  rcases List.mem_cons.1 hs with rfl | hs
  · exact Nested.isDiscreet_nested _
  · rw [List.mem_singleton.1 hs]
    exact Step.isDiscreet_waitForEvent _ _

theorem meets_acts : ∀ a ∈ acts, a.Meets .discreet := by
  have hregistry : registry.Meets .discreet :=
    (Registry.meets_empty.put _ isDiscreet_parent).put _ isDiscreet_child
  exact Act.forall_meets hregistry rfl

/-- The numbers of those that descend from the task by which the parent is resumed. -/
def own : Nat → Bool := Greeting.engine.family (· == (Greeting.engine.after begun).next) acts

/-- What has been taken was delivered, or handed on. -/
theorem taken_at_most :
    Greeting.engine.takings own acts ≤ {event} + Greeting.engine.handings own acts ∧
      (Greeting.engine.handings own acts = 0 → (Greeting.engine.takings own acts).card ≤ 1) := by
  have hacts : acts = begun ++ .resume ⟨0⟩ (.root 1) "parent" "p" event ::
      .replicate 25 (.advance 5) := rfl
  have hnew : Greeting.engine.IsNew := ⟨rfl, rfl, rfl, rfl⟩
  have hle := hnew.takings_le meets_acts hacts rfl
  exact hle

/-- **One event is taken twice.** The parent is resumed with the event, hands it to the child, which
takes it, and then takes it too. -/
theorem taken_twice : (Greeting.engine.takings own acts).map Event.name = {"go", "go"} := by
  decide +kernel

end EventHandedOn

end DurableFlow
