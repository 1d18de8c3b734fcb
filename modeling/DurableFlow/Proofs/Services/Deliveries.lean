import DurableFlow.Proofs.Services.Receivers

/-!
# Deliveries of notices

What the annals of a switchboard tell of each history. `Annals.Keeps` says how the switchboard goes
with what has happened to it; it holds while a publication goes on, too, when its notice is still owed
to some of the handlers.

Main statement: every publication calls the handlers of the subscriptions that stood when it began,
and every receiver is told what was published while its subscription stood (`Annals.delivers`).
-/

namespace DurableFlow

open Happening

/-! ## The calls and the counts -/

/-- Whoever has asked has been told how many subscriptions stood. -/
def Counts (T : List Happening) : Prop :=
  ∀ before topic n later, T = before ++ .counted topic n :: later →
    n = (standingFor topic before).length

theorem Counts.concat {T : List Happening} {h : Happening} (k : Counts T)
    (hcounted : ∀ topic n, h = .counted topic n → n = (standingFor topic T).length) :
    Counts (T ++ [h]) := by
  intro before topic n later heq
  obtain ⟨-, rfl, hlast⟩ | ⟨later', -, heq'⟩ := concat_cases heq
  · exact hcounted topic n hlast
  · exact k before topic n later' heq'

/-- Each publication has called the handlers of the subscriptions that stood, and nothing else has;
the one that goes on has still to call some of them. -/
structure Rounds (x : Notice) (rs : List (Registration Listener)) (T : List Happening) : Prop where
  calls : ∀ before y later, T = before ++ .published y :: later →
    (round later ++ if later.all fun h => h.published?.isNone then rs.map (·, x) else []) =
      (standingFor y.topic before).map (·, y)
  uncalled : round T = []
  begun : rs ≠ [] → (T.all fun h => h.published?.isNone) = false

namespace Rounds

variable {x : Notice} {r : Registration Listener} {rs : List (Registration Listener)}
  {T : List Happening} {h : Happening}

theorem nil : Rounds x [] [] := by
  constructor <;> simp [Happening.round]

/-- Nothing is published and no handler is called. -/
theorem concat (k : Rounds x rs T) (hcalled : h.called? = none) (hpublished : h.published? = none) :
    Rounds x rs (T ++ [h]) where
  calls before y later heq := by
    obtain ⟨-, -, rfl⟩ | ⟨later', rfl, heq'⟩ := concat_cases heq
    · cases hpublished
    · simpa [round_concat, hcalled, hpublished] using k.calls before y later' heq'
  uncalled := by simpa [round_concat, hcalled] using k.uncalled
  begun hrs := by simpa [hpublished] using k.begun hrs

theorem called (k : Rounds x (r :: rs) T) : Rounds x rs (T ++ [.called r x]) where
  calls before y later heq := by
    obtain ⟨-, -, hlast⟩ | ⟨later', rfl, heq'⟩ := concat_cases heq
    · cases hlast
    · have hcalls := k.calls before y later' heq'
      rw [← hcalls, round_concat, List.all_append]
      cases later'.all fun h => h.published?.isNone <;> simp [called?, published?]
  uncalled := by
    have hbegun := k.begun (List.cons_ne_nil r rs)
    rw [round_concat, k.uncalled, hbegun]
    rfl
  begun _ := by
    rw [List.all_append, k.begun (List.cons_ne_nil r rs), Bool.false_and]

theorem published (k : Rounds x [] T) (y : Notice) :
    Rounds y (standingFor y.topic T) (T ++ [.published y]) where
  calls before z later heq := by
    obtain ⟨rfl, rfl, hlast⟩ | ⟨later', rfl, heq'⟩ := concat_cases heq
    · obtain rfl := Happening.published.inj hlast
      simp [Happening.round]
    · simpa [round_concat, called?, published?] using k.calls before z later' heq'
  uncalled := by simpa [round_concat, called?] using k.uncalled
  begun _ := by simp [published?]

end Rounds

/-! ## The invariant -/

namespace Annals

/-- What has happened tells what the switchboard has, while a publication goes on that has still to
call some handlers. -/
structure Keeps (x : Notice) (rs : List (Registration Listener)) (a : Annals) : Prop where
  numbers : Numbers a.board.bus.next a.happened
  handles : Handles a.board a.happened
  receives : Receives a.board x rs a.happened
  rounds : Rounds x rs a.happened
  counts : Counts a.happened
  heard : a.board.heard = a.happened.filterMap heard?
  listed : rs ⊆ a.happened.filterMap made?

namespace Keeps

variable {x : Notice} {r : Registration Listener} {rs : List (Registration Listener)}
  {a : Annals} {s : Switchboard} {T : List Happening} {h : Happening} {name : String}
  {n m : Nat} {topic : Topic} {l : Listener}

theorem empty : Keeps x [] {} where
  numbers := Numbers.nil
  handles := ⟨rfl, by simp, by simp⟩
  receives := Receives.nil
  rounds := Rounds.nil
  counts := by simp [Counts]
  heard := rfl
  listed := by simp

/-- A subscription is made, for a new receiver if it is that of a channel. -/
theorem made (k : Keeps x rs ⟨s, T⟩) (hheld : s.isHeld = true) (name : String) (topic : Topic)
    (hnew : ∀ m, l = .channel m → Receives.IsNew s T m) :
    Keeps x rs ⟨{ s with
        bus := (s.bus.subscribe topic l).1
        subscriptions := s.subscriptions.put name s.bus.next },
      T ++ [.made name ⟨s.bus.next, topic, l⟩]⟩ where
  numbers := k.numbers.made name topic l
  handles := k.handles.made k.numbers hheld name topic l
  receives := (k.receives.made k.numbers k.listed name topic hnew).congr rfl rfl rfl
  rounds := k.rounds.concat rfl rfl
  counts := k.counts.concat fun _ _ heq => by cases heq
  heard := k.heard.trans (filterMap_concat_of_none rfl).symm
  listed := by simpa [List.filterMap_append] using List.subset_append_of_subset_left _ k.listed

/-- A subscription that has no handle ends. -/
theorem ended (k : Keeps x rs ⟨s, T⟩) (hlt : n < s.bus.next)
    (hn : ∀ name, s.subscriptions.get? name ≠ some n) :
    Keeps x rs ⟨s.endRegistration n, T ++ [.ended n]⟩ where
  numbers := by
    rw [Switchboard.endRegistration, Switchboard.release_eq]
    refine k.numbers.concat rfl fun m hm => ?_
    obtain rfl := Option.some.inj hm
    exact hlt
  handles := k.handles.ended hn
  receives := by
    rw [Switchboard.endRegistration, Switchboard.release_eq]
    exact (k.receives.concat rfl rfl fun _ => rfl).congr rfl rfl rfl
  rounds := k.rounds.concat rfl rfl
  counts := k.counts.concat fun _ _ heq => by cases heq
  heard := by
    rw [Switchboard.endRegistration, Switchboard.release_eq]
    exact k.heard.trans (filterMap_concat_of_none rfl).symm
  listed := by
    rw [filterMap_concat_of_none rfl]
    exact k.listed

/-- Something happens that is of no concern to subscriptions, publications and receivers. -/
theorem concat (k : Keeps x rs ⟨s, T⟩) (hmade : h.made? = none) (hended : h.ended? = none)
    (hpublished : h.published? = none) (hcalled : h.called? = none) (htold : ∀ m, h.told? m = none)
    (hcounted : ∀ topic n, h = .counted topic n → n = (standingFor topic T).length) :
    Keeps x rs ⟨s, T ++ [h]⟩ where
  numbers := k.numbers.concat hmade fun n hn => by simp [hended] at hn
  handles := k.handles.concat hmade hended
  receives := k.receives.concat hmade hpublished htold
  rounds := k.rounds.concat hcalled hpublished
  counts := k.counts.concat hcounted
  heard := by
    have hheard : h.heard? = none := by cases h <;> first | rfl | cases hcalled
    exact k.heard.trans (filterMap_concat_of_none hheard).symm
  listed := by
    rw [filterMap_concat_of_none hmade]
    exact k.listed

/-- The number of a handle has been given. -/
theorem lt_of_get? (k : Keeps x rs a) (hn : a.board.subscriptions.get? name = some n) :
    n < a.board.bus.next := by
  obtain ⟨before, r, later, heq, rfl, -, -⟩ := k.handles.handle name n hn
  exact k.numbers.made_lt r (mem_made heq)

/-- A listener is registered, and the subscription that had the name ends. -/
theorem register (k : Keeps x rs ⟨s, T⟩) (hheld : s.isHeld = true)
    (hnew : ∀ m, l = .channel m → Receives.IsNew s T m) :
    Keeps x rs ⟨s.register name topic l,
      T ++ .made name ⟨s.bus.next, topic, l⟩ :: s.endings name⟩ := by
  have hmade := k.made hheld name topic hnew
  rw [Switchboard.register, Switchboard.endings]
  cases hold : s.subscriptions.get? name with
  | none => exact hmade
  | some old =>
    have hlt : old < s.bus.next := k.lt_of_get? hold
    have hended := hmade.ended (Nat.lt_succ_of_lt hlt) (n := old) fun name' hname' => by
      rw [Table.get?_put] at hname'
      split at hname'
      · exact hlt.ne' (Option.some.inj hname')
      · next hne => exact hne (k.handles.injective name name' old hold hname')
    rwa [List.append_assoc] at hended

/-- The subscription of a name ends. -/
theorem unsubscribe (k : Keeps x rs ⟨s, T⟩) (name : String) :
    Keeps x rs ⟨s.unsubscribe name, T ++ s.endings name⟩ := by
  rw [Switchboard.unsubscribe, Switchboard.endings]
  cases hold : s.subscriptions.get? name with
  | none => simpa using k
  | some old =>
    have herased : Keeps x rs ⟨{ s with subscriptions := s.subscriptions.erase name }, T⟩ :=
      { k with
        handles := k.handles.erase name
        receives := k.receives.congr rfl rfl rfl }
    refine herased.ended (k.lt_of_get? hold) fun name' hname' => ?_
    rw [Table.get?_erase] at hname'
    split at hname'
    · cases hname'
    · next hne => exact hne (k.handles.injective name name' old hold hname')

/-- As long as the bus is held, the handlers for a topic are those of the subscriptions that
stand. -/
theorem listeners (k : Keeps x rs a) (hheld : a.board.isHeld = true) (topic : Topic) :
    a.board.bus.listeners topic = standingFor topic a.happened := by
  rw [Bus.listeners, k.handles.registered, hheld, Bool.true_or, if_pos rfl, standingFor]

/-- A queue is subscribed, and its receiver takes the place of the one that had the name. -/
theorem openChannel (k : Keeps x rs a) (hheld : a.board.isHeld = true) (name : String)
    (topic : Topic) :
    Keeps x rs ⟨a.board.openChannel name topic, a.happened ++
      .made name ⟨a.board.bus.next, topic, .channel a.board.nextReceiver⟩ ::
        a.board.endings name⟩ := by
  have hopened := k.receives.opened name
  refine register (T := a.happened) (l := .channel a.board.nextReceiver)
    { k with handles := { k.handles with }, receives := hopened } hheld fun m heq => ?_
  obtain rfl := Listener.channel.inj heq
  exact {
    lt := Nat.lt_succ_self _
    channel := fun r hr hchannel => (k.receives.channel_lt r hr _ hchannel).false
    told := k.receives.told_nil _ le_rfl
    queue := Table.get?_put_self _ _ _ }

/-- A receiver takes what is next in its queue. -/
theorem receive (k : Keeps x rs a) (name : String) : Keeps x rs (a.errand (.receive name)) := by
  cases hm : a.board.receivers.get? name with
  | none =>
    have hsame : a.errand (.receive name) = a := by
      simp [Annals.errand, Switchboard.receive, hm]
    rwa [hsame]
  | some m =>
    obtain ⟨queue, hqueue⟩ := k.receives.queue name m hm
    cases queue with
    | nil =>
      have hsame : a.errand (.receive name) = a := by
        simp only [Annals.errand, Switchboard.receive, hm, hqueue, Option.getD_some]
        cases a.board.bus.registrations.any (Switchboard.feeds m) <;> rfl
      rwa [hsame]
    | cons y q =>
      have htaken : a.errand (.receive name) =
          ⟨{ a.board with queues := a.board.queues.put m q }, a.happened ++ [.received m y]⟩ := by
        simp [Annals.errand, Switchboard.receive, hm, hqueue]
      rw [htaken]
      exact {
        numbers := k.numbers.concat rfl fun _ heq => by cases heq
        handles := { k.handles.concat rfl rfl with }
        receives := k.receives.received hqueue (k.receives.receiver_lt name m hm)
        rounds := k.rounds.concat rfl rfl
        counts := k.counts.concat fun _ _ heq => by cases heq
        heard := k.heard.trans (filterMap_concat_of_none rfl).symm
        listed := by
          rw [filterMap_concat_of_none rfl]
          exact k.listed }

/-- **An errand keeps the invariant.** -/
theorem errand (k : Keeps x rs a) (e : Errand) : Keeps x rs (a.errand e) := by
  cases e with
  | subscribe name topic reaction =>
    rw [Annals.errand]
    split
    · next hheld => exact k.register hheld fun _ heq => by cases heq
    · exact k
  | openChannel name topic =>
    rw [Annals.errand]
    split
    · next hheld => exact k.openChannel hheld name topic
    · exact k
  | unsubscribe name => exact k.unsubscribe name
  | forget name =>
    exact { k with
      handles := k.handles.erase name
      receives := k.receives.congr rfl rfl rfl }
  | count topic =>
    rw [Annals.errand]
    split
    · next hheld =>
      refine k.concat rfl rfl rfl rfl (fun _ => rfl) fun topic n heq => ?_
      obtain ⟨rfl, rfl⟩ := Happening.counted.inj heq
      rw [Bus.count, k.listeners hheld]
    · exact k
  | receive name => exact k.receive name
  | closeReceiver name =>
    simp only [Annals.errand, Switchboard.closeReceiver]
    split
    · next m hm =>
      exact { k with
        handles := { k.handles with }
        receives := k.receives.closed hm }
    · exact k

/-- Errands keep the invariant, one after the other. -/
theorem errands (k : Keeps x rs a) (es : List Errand) : Keeps x rs (es.foldl Annals.errand a) := by
  induction es generalizing a with
  | nil => exact k
  | cons e es ih => exact ih (k.errand e)

/-- **A call keeps the invariant**: the notice is not owed to that handler any more. -/
theorem call (k : Keeps x (r :: rs) a) (amid : Nat → List Errand) :
    Keeps x rs (a.call amid r x) := by
  refine errands ?_ _
  have hr : r ∈ a.happened.filterMap made? := k.listed List.mem_cons_self
  exact {
    numbers := by
      rw [Switchboard.hear_eq]
      exact k.numbers.concat rfl fun _ heq => by cases heq
    handles := by
      rw [Switchboard.hear_eq]
      exact { k.handles.concat rfl rfl with }
    receives := k.receives.hear k.numbers hr
    rounds := k.rounds.called
    counts := k.counts.concat fun _ _ heq => by cases heq
    heard := by
      rw [Switchboard.hear_eq, List.filterMap_append]
      obtain ⟨number, topic, _ | m⟩ := r
      · simp [heard?, k.heard]
      · simp [heard?, k.heard]
    listed := by
      rw [filterMap_concat_of_none rfl]
      exact List.Subset.trans (List.subset_cons_self r rs) k.listed }

/-- Nothing is owed at rest, whatever was published last. -/
theorem rest (k : Keeps x [] a) (y : Notice) : Keeps y [] a where
  numbers := k.numbers
  handles := k.handles
  receives := { k.receives with }
  rounds := { k.rounds with }
  counts := k.counts
  heard := k.heard
  listed := k.listed

theorem calls {y : Notice} (k : Keeps y rs a) (amid : Nat → List Errand) :
    Keeps y [] (rs.foldl (fun a r => Annals.call amid r y a) a) := by
  induction rs generalizing a with
  | nil => exact k
  | cons r rs ih => exact ih (k.call amid)

/-- **A publication keeps the invariant**, call by call. -/
theorem publish (k : Keeps x [] a) (y : Notice) (amid : Nat → List Errand) :
    Keeps x [] (a.publish y amid) := by
  rw [Annals.publish]
  split
  · next hheld =>
    rw [Bus.publish, k.listeners hheld]
    refine (calls ?_ amid).rest x
    exact {
      numbers := k.numbers.concat rfl fun _ heq => by cases heq
      handles := k.handles.concat rfl rfl
      receives := k.receives.published k.numbers y
      rounds := k.rounds.published y
      counts := k.counts.concat fun _ _ heq => by cases heq
      heard := k.heard.trans (filterMap_concat_of_none rfl).symm
      listed := fun r hr => by
        rw [filterMap_concat_of_none rfl]
        exact List.mem_of_mem_filter (List.mem_of_mem_filter hr) }
  · exact k

theorem dropBus (k : Keeps x rs ⟨s, T⟩) : Keeps x rs ⟨s.dropBus, T⟩ := by
  have hhandles := k.handles.dropBus
  rw [Switchboard.dropBus, Switchboard.release_eq] at hhandles ⊢
  exact { k with handles := hhandles, receives := k.receives.congr rfl rfl rfl }

theorem deal (k : Keeps x [] a) (d : Dealing) : Keeps x [] (a.deal d) := by
  cases d with
  | errand e => exact k.errand e
  | publish y amid => exact k.publish y amid
  | dropBus => exact k.dropBus

/-- **The invariant holds of every history.** -/
theorem of (ds : List Dealing) (x : Notice) : Keeps x [] (Annals.of ds) := by
  have hfold : ∀ (ds : List Dealing) (a : Annals), Keeps x [] a →
      Keeps x [] (ds.foldl Annals.deal a) := by
    intro ds
    induction ds with
    | nil => exact fun _ k => k
    | cons d ds ih => exact fun a k => ih _ (k.deal d)
  exact hfold ds {} empty

end Keeps

/-! ## Where the receivers come from -/

/-- The receiver of a name is that of a channel which was opened under it. -/
def Opened (a : Annals) : Prop :=
  ∀ name m, a.board.receivers.get? name = some m →
    ∃ before r later, a.happened = before ++ .made name r :: later ∧ r.handler = .channel m

namespace Opened

variable {a : Annals} {s : Switchboard}

theorem extend (k : Opened a) (hreceivers : s.receivers = a.board.receivers)
    (hs : List Happening) : Opened ⟨s, a.happened ++ hs⟩ := by
  intro name m hm
  rw [hreceivers] at hm
  obtain ⟨before, r, later, heq, hr⟩ := k name m hm
  exact ⟨before, r, later ++ hs, by simp [heq], hr⟩

theorem receivers_endRegistration (s : Switchboard) (n : Nat) :
    (s.endRegistration n).receivers = s.receivers := by
  rw [Switchboard.endRegistration, Switchboard.release_eq]

theorem receivers_register (s : Switchboard) (name : String) (topic : Topic) (l : Listener) :
    (s.register name topic l).receivers = s.receivers := by
  simp only [Switchboard.register]
  split
  · exact receivers_endRegistration _ _
  · rfl

theorem receivers_unsubscribe (s : Switchboard) (name : String) :
    (s.unsubscribe name).receivers = s.receivers := by
  simp only [Switchboard.unsubscribe]
  split
  · exact receivers_endRegistration _ _
  · rfl

theorem errand (k : Opened a) (e : Errand) : Opened (a.errand e) := by
  cases e with
  | subscribe name topic reaction =>
    rw [Annals.errand]
    split
    · exact k.extend (receivers_register _ _ _ _) _
    · exact k
  | openChannel name topic =>
    rw [Annals.errand]
    split
    · intro name' m hm
      rw [Switchboard.openChannel, receivers_register, Table.get?_put] at hm
      split at hm
      · next heq =>
        subst heq
        obtain rfl := Option.some.inj hm
        exact ⟨a.happened, _, _, rfl, rfl⟩
      · exact k.extend (s := a.board) rfl _ name' m hm
    · exact k
  | unsubscribe name => exact k.extend (receivers_unsubscribe _ _) _
  | forget name => exact k
  | count topic =>
    rw [Annals.errand]
    split
    · exact k.extend rfl _
    · exact k
  | receive name =>
    have hreceivers : (a.board.receive name).2.receivers = a.board.receivers := by
      simp only [Switchboard.receive]
      split
      · rfl
      · split
        · rfl
        · split <;> rfl
    simp only [Annals.errand]
    split
    · next heq =>
      rw [heq] at hreceivers
      exact k.extend hreceivers _
    · next heq _ =>
      rw [heq] at hreceivers
      exact fun name m hm => k name m (hreceivers ▸ hm)
  | closeReceiver name =>
    simp only [Annals.errand, Switchboard.closeReceiver]
    split
    · intro name' m hm
      rw [Table.get?_erase] at hm
      split at hm
      · cases hm
      · exact k name' m hm
    · exact k

theorem errands (k : Opened a) (es : List Errand) : Opened (es.foldl Annals.errand a) := by
  induction es generalizing a with
  | nil => exact k
  | cons e es ih => exact ih (k.errand e)

theorem deal (k : Opened a) (d : Dealing) : Opened (a.deal d) := by
  cases d with
  | errand e => exact k.errand e
  | publish y amid =>
    have hcalls : ∀ (rs : List (Registration Listener)) (a : Annals), Opened a →
        Opened (rs.foldl (fun a r => Annals.call amid r y a) a) := by
      intro rs
      induction rs with
      | nil => exact fun _ k => k
      | cons r rs ih =>
        intro a k
        refine ih _ (errands (k.extend ?_ _) _)
        rw [Switchboard.hear_eq]
    simp only [Annals.deal, Annals.publish]
    split
    · exact hcalls _ _ (k.extend rfl _)
    · exact k
  | dropBus =>
    intro name m hm
    rw [Annals.deal, Switchboard.dropBus, Switchboard.release_eq] at hm
    exact k name m hm

theorem of (ds : List Dealing) : Opened (Annals.of ds) := by
  have hfold : ∀ (ds : List Dealing) (a : Annals), Opened a → Opened (ds.foldl Annals.deal a) := by
    intro ds
    induction ds with
    | nil => exact fun _ k => k
    | cons d ds ih => exact fun a k => ih _ (k.deal d)
  exact hfold ds {} (by simp [Opened])

end Opened

/-! ## The law -/

/-- What every history keeps to. -/
structure Delivers (a : Annals) : Prop where
  /-- Every subscription has a number of its own. -/
  numbered : ((a.happened.filterMap made?).map Registration.number).Nodup
  /-- The registrations are the subscriptions that stand, in the order in which they were made, as
  long as the bus is held by somebody or by a handler. -/
  registered : a.board.isHeld = true ∨ (∃ r ∈ standing a.happened, Switchboard.keepsBus r = true) →
    a.board.bus.registrations = standing a.happened
  /-- A publication calls the handlers of the subscriptions to its topic that stood when it began,
  each once and in order, and no others. -/
  calls : ∀ before x later, a.happened = before ++ .published x :: later →
    round later = (standingFor x.topic before).map (·, x)
  /-- No handler is called before something is published. -/
  uncalled : round a.happened = []
  /-- What the listeners that record have written down is what they were called for. -/
  heard : a.board.heard = a.happened.filterMap heard?
  /-- Whoever asked how many handlers there were for a topic, between publications or during one,
  was told how many subscriptions to it stood. -/
  counted : ∀ before topic n later, a.happened = before ++ .counted topic n :: later →
    n = (standingFor topic before).length
  count : a.board.isHeld = true → ∀ topic,
    a.board.bus.count topic = (standingFor topic a.happened).length
  /-- A handle is that of the subscription which was made last under its name, and stands. -/
  handle : ∀ name n, a.board.subscriptions.get? name = some n → IsHandle a.happened name n
  /-- To end a subscription is to remove its own handler, and no other. -/
  ends : a.board.isHeld = true → ∀ name n, a.board.subscriptions.get? name = some n →
    ∃ left r right, a.board.bus.registrations = left ++ r :: right ∧ r.number = n ∧
      (a.board.unsubscribe name).bus.registrations = left ++ right
  /-- To end one when the bus is gone is to lose the handle, and nothing else. -/
  gone : a.board.isHeld = false →
    (∀ r ∈ standing a.happened, Switchboard.keepsBus r = false) →
    ∀ name n, a.board.subscriptions.get? name = some n →
      a.board.unsubscribe name = a.board.forget name
  /-- A receiver has been told the first notices that were due to its subscription. -/
  told : ∀ before name r later m, a.happened = before ++ .made name r :: later →
    r.handler = .channel m → toldTo m a.happened <+: due r later
  /-- A receiver that was not closed finds the next notice that is due, as long as there is one. -/
  finds : ∀ name m, a.board.receivers.get? name = some m →
    ∃ before r later, a.happened = before ++ .made name r :: later ∧ r.handler = .channel m ∧
      ∀ x, (a.board.receive name).1 = .notice x ↔
        (due r later)[(toldTo m a.happened).length]? = some x

namespace Keeps

variable {x : Notice} {a : Annals} {name : String} {n m : Nat}

/-- A handle is that of one of the registrations. -/
theorem mem_registrations (k : Keeps x [] a) (hheld : a.board.isHeld = true)
    (hn : a.board.subscriptions.get? name = some n) :
    ∃ r ∈ a.board.bus.registrations, r.number = n := by
  obtain ⟨before, r, later, heq, rfl, -, hstands⟩ := k.handles.handle name n hn
  refine ⟨r, ?_, rfl⟩
  rw [k.handles.registered, hheld, Bool.true_or, if_pos rfl, standing, List.mem_filter]
  exact ⟨mem_made heq, decide_eq_true (mt (k.numbers.mem_ended_iff heq).1 hstands)⟩

theorem nodup_registrations (k : Keeps x [] a) (hheld : a.board.isHeld = true) :
    (a.board.bus.registrations.map Registration.number).Nodup := by
  rw [k.handles.registered, hheld, Bool.true_or, if_pos rfl]
  exact k.numbers.nodup.sublist (List.filter_sublist.map Registration.number)

/-- To end a subscription is to remove its own handler, and no other. -/
theorem unsubscribe_removes (k : Keeps x [] a) (hheld : a.board.isHeld = true)
    (hn : a.board.subscriptions.get? name = some n) :
    ∃ left r right, a.board.bus.registrations = left ++ r :: right ∧ r.number = n ∧
      (a.board.unsubscribe name).bus.registrations = left ++ right := by
  obtain ⟨r, hr, rfl⟩ := k.mem_registrations hheld hn
  obtain ⟨left, right, heq⟩ := List.append_of_mem hr
  refine ⟨left, r, right, heq, rfl, ?_⟩
  have hnodup := k.nodup_registrations hheld
  rw [heq, List.map_append, List.map_cons, List.nodup_middle, List.nodup_cons, ← List.map_append]
    at hnodup
  have hothers : ∀ r' ∈ left ++ right, r'.number ≠ r.number := fun r' hr' hnumber =>
    hnodup.1 (hnumber ▸ List.mem_map_of_mem hr')
  simp only [Switchboard.unsubscribe, hn, Switchboard.endRegistration, Switchboard.release_eq, hheld,
    Bool.true_or, if_true, Bus.unsubscribe, heq, List.filter_append]
  rw [List.filter_cons_of_neg (by simp), ← List.filter_append, List.filter_eq_self]
  simpa using hothers

/-- To end a subscription when the bus is gone is to lose the handle, and nothing else. -/
theorem unsubscribe_gone (k : Keeps x [] a) (hheld : a.board.isHeld = false)
    (hnone : ∀ r ∈ standing a.happened, Switchboard.keepsBus r = false)
    (hn : a.board.subscriptions.get? name = some n) :
    a.board.unsubscribe name = a.board.forget name := by
  have hany : (standing a.happened).any Switchboard.keepsBus = false :=
    List.any_eq_false.2 fun r hr => by simp [hnone r hr]
  have hregistrations := k.handles.registered
  rw [hheld, hany, Bool.false_or, if_neg Bool.false_ne_true] at hregistrations
  have hbus : a.board.bus.unsubscribe n = a.board.bus := by
    rw [Bus.unsubscribe, hregistrations, List.filter_nil, ← hregistrations]
  have hreleased : ∀ subscriptions, ({ a.board with subscriptions } : Switchboard).release =
      { a.board with subscriptions } := fun subscriptions => by
    rw [Switchboard.release_eq, hregistrations, ite_self, ← hregistrations]
  rw [Switchboard.forget, Switchboard.unsubscribe, hn]
  simp only [Switchboard.endRegistration, hbus, hreleased]

/-- A receiver finds the first notice of its queue. -/
theorem receive_eq_notice_iff {q : List Notice} (hm : a.board.receivers.get? name = some m)
    (hq : a.board.queues.get? m = some q) (y : Notice) :
    (a.board.receive name).1 = .notice y ↔ q[0]? = some y := by
  cases q with
  | nil =>
    simp only [Switchboard.receive, hm, hq, Option.getD_some]
    cases a.board.bus.registrations.any (Switchboard.feeds m) <;> simp
  | cons z q => simp [Switchboard.receive, hm, hq]

end Keeps

/-- **Every history delivers**, whatever the handlers do to the subscriptions while they are called:
a publication calls the handlers that stood for its topic when it began, and a subscription that ends
meanwhile is still called for it. What a receiver finds is what was published while its subscription
stood, without a gap and without anything twice. -/
theorem delivers (ds : List Dealing) : Delivers (of ds) := by
  have k : Keeps ⟨"", "", .completed⟩ [] (of ds) := Keeps.of ds _
  exact {
    numbered := k.numbers.nodup
    registered := fun hheld => by
      rw [k.handles.registered, if_pos]
      simpa using hheld
    calls := fun before x later heq => by simpa using k.rounds.calls before x later heq
    uncalled := k.rounds.uncalled
    heard := k.heard
    counted := k.counts
    count := fun hheld topic => by rw [Bus.count, k.listeners hheld]
    handle := k.handles.handle
    ends := fun hheld _ _ hn => k.unsubscribe_removes hheld hn
    gone := fun hheld hnone _ _ hn => k.unsubscribe_gone hheld hnone hn
    told := k.receives.told
    finds := fun name m hm => by
      obtain ⟨before, r, later, heq, hr⟩ := Opened.of ds name m hm
      obtain ⟨q, hq⟩ := k.receives.queue name m hm
      refine ⟨before, r, later, heq, hr, fun x => ?_⟩
      have hqueued := k.receives.queued before name r later m q heq hr hq
      rw [Keeps.receive_eq_notice_iff hm hq, ← hqueued, List.append_assoc,
        List.getElem?_append_right le_rfl, Nat.sub_self]
      simp [owed] }

end Annals

end DurableFlow
