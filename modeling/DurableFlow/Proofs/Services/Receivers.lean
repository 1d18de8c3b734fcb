import DurableFlow.Proofs.Services.Subscriptions

/-!
# Receivers of notices

What the receivers of a switchboard have been told, and what is in their queues. A notice that is
published is due to the subscriptions to its topic, and it is owed to each of them until its handler
is called.

Main statement: what was told, what is queued and what is owed is what is due (`Receives`); everything
that happens keeps it so (`Receives.concat`, `Receives.made`, `Receives.opened`, `Receives.hear`,
`Receives.published`, `Receives.received`, `Receives.closed`).
-/

namespace DurableFlow

open Happening

/-- Each receiver has been told what was due to its subscription, in order; the rest of that is in its
queue, or the publication that goes on still owes it. -/
structure Receives (s : Switchboard) (x : Notice) (rs : List (Registration Listener))
    (T : List Happening) : Prop where
  receiver_lt : ∀ name m, s.receivers.get? name = some m → m < s.nextReceiver
  injective : ∀ name name' m, s.receivers.get? name = some m → s.receivers.get? name' = some m →
    name' = name
  queue : ∀ name m, s.receivers.get? name = some m → ∃ q, s.queues.get? m = some q
  channel_lt : ∀ r ∈ T.filterMap made?, ∀ m, r.handler = .channel m → m < s.nextReceiver
  channel_injective : ∀ r ∈ T.filterMap made?, ∀ r' ∈ T.filterMap made?, ∀ m,
    r.handler = .channel m → r'.handler = .channel m → r' = r
  told_nil : ∀ m, s.nextReceiver ≤ m → toldTo m T = []
  told : ∀ before name r later m, T = before ++ .made name r :: later → r.handler = .channel m →
    toldTo m T <+: due r later
  queued : ∀ before name r later m q, T = before ++ .made name r :: later →
    r.handler = .channel m → s.queues.get? m = some q →
      toldTo m T ++ q ++ owed x rs r.number = due r later

theorem Happening.toldTo_concat (m : Nat) (T : List Happening) (h : Happening) :
    toldTo m (T ++ [h]) = toldTo m T ++ (h.told? m).toList := by
  rw [toldTo, List.filterMap_append]
  cases hm : h.told? m <;> simp [toldTo, hm]

theorem Happening.owed_cons_of_ne {x : Notice} {r : Registration Listener}
    {rs : List (Registration Listener)} {n : Nat} (hne : r.number ≠ n) :
    owed x (r :: rs) n = owed x rs n := by
  rw [owed, List.filter_cons_of_neg (by simpa using hne), owed]

theorem Happening.owed_eq_nil {x : Notice} {rs : List (Registration Listener)} {n : Nat}
    (hne : ∀ r ∈ rs, r.number ≠ n) : owed x rs n = [] := by
  rw [owed, List.map_eq_nil_iff, List.filter_eq_nil_iff]
  simpa using hne

namespace Receives

variable {s s' : Switchboard} {x y : Notice} {r : Registration Listener}
  {rs : List (Registration Listener)} {T : List Happening} {h : Happening} {name : String} {m : Nat}
  {q : List Notice}

theorem nil : Receives {} x [] [] := by
  constructor <;> simp [toldTo]

theorem congr (k : Receives s x rs T) (hreceivers : s'.receivers = s.receivers)
    (hqueues : s'.queues = s.queues) (hnext : s'.nextReceiver = s.nextReceiver) :
    Receives s' x rs T where
  receiver_lt := hreceivers ▸ hnext ▸ k.receiver_lt
  injective := hreceivers ▸ k.injective
  queue := hreceivers ▸ hqueues ▸ k.queue
  channel_lt := hnext ▸ k.channel_lt
  channel_injective := k.channel_injective
  told_nil := hnext ▸ k.told_nil
  told := k.told
  queued := hqueues ▸ k.queued

/-- Something happens that is of no concern to receivers. -/
theorem concat (k : Receives s x rs T) (hmade : h.made? = none) (hpublished : h.published? = none)
    (htold : ∀ m, h.told? m = none) : Receives s x rs (T ++ [h]) where
  receiver_lt := k.receiver_lt
  injective := k.injective
  queue := k.queue
  channel_lt := by simpa [List.filterMap_append, hmade] using k.channel_lt
  channel_injective := by simpa [List.filterMap_append, hmade] using k.channel_injective
  told_nil m hm := by simpa [toldTo_concat, htold] using k.told_nil m hm
  told before name r later m heq hr := by
    obtain ⟨-, -, rfl⟩ | ⟨later', rfl, heq'⟩ := concat_cases heq
    · cases hmade
    · simpa [toldTo_concat, due_concat, htold, hpublished] using k.told _ _ _ _ m heq' hr
  queued before name r later m q heq hr hq := by
    obtain ⟨-, -, rfl⟩ | ⟨later', rfl, heq'⟩ := concat_cases heq
    · cases hmade
    · simpa [toldTo_concat, due_concat, htold, hpublished] using k.queued _ _ _ _ m q heq' hr hq

/-- Nobody is told by that receiver yet, and its queue is empty. -/
structure IsNew (s : Switchboard) (T : List Happening) (m : Nat) : Prop where
  lt : m < s.nextReceiver
  channel : ∀ r ∈ T.filterMap made?, r.handler ≠ .channel m
  told : toldTo m T = []
  queue : s.queues.get? m = some []

/-- A subscription is made; that of a channel is made for a new receiver. -/
theorem made (k : Receives s x rs T) (hnumbers : Numbers n T) (hrs : rs ⊆ T.filterMap made?)
    (name : String) (topic : Topic) {l : Listener} (hnew : ∀ m, l = .channel m → IsNew s T m) :
    Receives s x rs (T ++ [.made name ⟨n, topic, l⟩]) where
  receiver_lt := k.receiver_lt
  injective := k.injective
  queue := k.queue
  channel_lt r hr m hm := by
    rw [List.filterMap_append, List.mem_append] at hr
    obtain hr | hr := hr
    · exact k.channel_lt r hr m hm
    · obtain rfl : r = ⟨n, topic, l⟩ := by simpa [made?] using hr
      exact (hnew m hm).lt
  channel_injective r hr r' hr' m hm hm' := by
    rw [List.filterMap_append, List.mem_append] at hr hr'
    obtain hr | hr := hr <;> obtain hr' | hr' := hr'
    · exact k.channel_injective r hr r' hr' m hm hm'
    · obtain rfl : r' = ⟨n, topic, l⟩ := by simpa [made?] using hr'
      exact ((hnew m hm').channel r hr hm).elim
    · obtain rfl : r = ⟨n, topic, l⟩ := by simpa [made?] using hr
      exact ((hnew m hm).channel r' hr' hm').elim
    · obtain rfl : r = ⟨n, topic, l⟩ := by simpa [made?] using hr
      simpa [made?] using hr'
  told_nil m hm := by simpa [toldTo_concat, told?] using k.told_nil m hm
  told before name' r later m heq hr := by
    obtain ⟨rfl, rfl, hlast⟩ | ⟨later', rfl, heq'⟩ := concat_cases heq
    · obtain ⟨-, rfl⟩ := Happening.made.inj hlast
      simp [toldTo_concat, told?, (hnew m hr).told]
    · simpa [toldTo_concat, due_concat, told?, published?] using k.told _ _ _ _ m heq' hr
  queued before name' r later m q heq hr hq := by
    obtain ⟨rfl, rfl, hlast⟩ | ⟨later', rfl, heq'⟩ := concat_cases heq
    · obtain ⟨-, rfl⟩ := Happening.made.inj hlast
      have howed : owed x rs n = [] := owed_eq_nil fun r hr => (hnumbers.made_lt r (hrs hr)).ne
      obtain rfl : q = [] := Option.some.inj (hq.symm.trans (hnew m hr).queue)
      simp [toldTo_concat, told?, (hnew m hr).told, howed, due]
    · simpa [toldTo_concat, due_concat, told?, published?] using k.queued _ _ _ _ m q heq' hr hq

/-- The receiver of a name is replaced by a new one. -/
theorem opened (k : Receives s x rs T) (name : String) :
    let queues := match s.receivers.get? name with
      | some old => s.queues.erase old
      | none => s.queues
    Receives { s with
      nextReceiver := s.nextReceiver + 1
      queues := queues.put s.nextReceiver []
      receivers := s.receivers.put name s.nextReceiver } x rs T := by
  intro queues
  have hkept : ∀ m q, queues.get? m = some q → s.queues.get? m = some q := by
    intro m q hq
    simp only [queues] at hq
    split at hq
    · rw [Table.get?_erase] at hq
      split at hq
      · cases hq
      · exact hq
    · exact hq
  have hothers : ∀ name' m, name' ≠ name → s.receivers.get? name' = some m →
      queues.get? m = s.queues.get? m := by
    intro name' m hne hm
    simp only [queues]
    split
    · next old hold =>
      refine Table.get?_erase_of_ne _ fun heq => hne ?_
      subst heq
      exact k.injective name name' m hold hm
    · rfl
  refine ⟨?_, ?_, ?_, ?_, k.channel_injective, ?_, k.told, ?_⟩
  · intro name' m hm
    rw [Table.get?_put] at hm
    split at hm
    · obtain rfl := Option.some.inj hm
      exact Nat.lt_succ_self _
    · exact Nat.lt_succ_of_lt (k.receiver_lt name' m hm)
  · intro name₁ name₂ m h₁ h₂
    rw [Table.get?_put] at h₁ h₂
    split at h₁ <;> split at h₂
    · next heq₁ heq₂ => exact heq₂.trans heq₁.symm
    · obtain rfl := Option.some.inj h₁
      exact (k.receiver_lt _ _ h₂).false.elim
    · obtain rfl := Option.some.inj h₂
      exact (k.receiver_lt _ _ h₁).false.elim
    · exact k.injective name₁ name₂ m h₁ h₂
  · intro name' m hm
    rw [Table.get?_put] at hm
    split at hm
    · obtain rfl := Option.some.inj hm
      exact ⟨[], Table.get?_put_self _ _ _⟩
    · next hne =>
      obtain ⟨q, hq⟩ := k.queue name' m hm
      refine ⟨q, ?_⟩
      rw [Table.get?_put_of_ne _ _ (k.receiver_lt name' m hm).ne, hothers name' m hne hm, hq]
  · exact fun r hr m hm => Nat.lt_succ_of_lt (k.channel_lt r hr m hm)
  · exact fun m hm => k.told_nil m (Nat.le_of_succ_le hm)
  · intro before name' r later m q heq hr hq
    have hne : m ≠ s.nextReceiver := (k.channel_lt r (mem_made heq) m hr).ne
    rw [Table.get?_put_of_ne _ _ hne] at hq
    exact k.queued before name' r later m q heq hr (hkept m q hq)

/-- A handler hears the notice that is owed to it. -/
theorem hear (k : Receives s x (r :: rs) T) (hnumbers : Numbers n T)
    (hr : r ∈ T.filterMap made?) : Receives (s.hear r x) x rs (T ++ [.called r x]) := by
  have hother : ∀ r' ∈ T.filterMap made?, r' ≠ r →
      owed x (r :: rs) r'.number = owed x rs r'.number := fun r' hr' hne =>
    owed_cons_of_ne fun heq => hne (hnumbers.eq_of_number hr hr' heq.symm)
  have hself : owed x (r :: rs) r.number = x :: owed x rs r.number := by
    simp [owed]
  suffices hbefore : Receives (s.hear r x) x rs T from
    hbefore.concat rfl rfl fun _ => rfl
  obtain ⟨number, topic, l⟩ := r
  cases l with
  | record name reaction =>
    refine ⟨k.receiver_lt, k.injective, k.queue, k.channel_lt, k.channel_injective, k.told_nil,
      k.told, fun before name' r' later m q heq hr' hq => ?_⟩
    rw [← hother r' (mem_made heq) (by rintro rfl; cases hr')]
    exact k.queued before name' r' later m q heq hr' hq
  | channel m =>
    cases hqueue : s.queues.get? m with
    | none =>
      have hsame : s.hear ⟨number, topic, .channel m⟩ x = s := by simp [Switchboard.hear, hqueue]
      rw [hsame]
      refine { k with queued := fun before name' r' later m' q heq hr' hq => ?_ }
      rw [← hother r' (mem_made heq) ?_]
      · exact k.queued before name' r' later m' q heq hr' hq
      · rintro rfl
        obtain rfl := Listener.channel.inj hr'
        simp [hqueue] at hq
    | some queue =>
      have hsame : s.hear ⟨number, topic, .channel m⟩ x =
          { s with queues := s.queues.put m (queue ++ [x]) } := by
        simp [Switchboard.hear, hqueue]
      rw [hsame]
      refine ⟨k.receiver_lt, k.injective, fun name' m' hm' => ?_, k.channel_lt,
        k.channel_injective, k.told_nil, k.told, fun before name' r' later m' q heq hr' hq => ?_⟩
      · rw [Table.get?_put]
        split
        · exact ⟨_, rfl⟩
        · exact k.queue name' m' hm'
      · rw [Table.get?_put] at hq
        split at hq
        · next hm' =>
          subst hm'
          obtain rfl := Option.some.inj hq
          obtain rfl := k.channel_injective _ hr _ (mem_made heq) m' rfl hr'
          rw [← k.queued before name' _ later m' queue heq rfl hqueue, hself]
          simp
        · next hm' =>
          rw [← hother r' (mem_made heq) (by rintro rfl; exact hm' (Listener.channel.inj hr').symm)]
          exact k.queued before name' r' later m' q heq hr' hq

/-- What is published is due to the subscriptions to its topic that stand, and owed to them. -/
theorem published (k : Receives s x [] T) (hnumbers : Numbers n T) (y : Notice) :
    Receives s y (standingFor y.topic T) (T ++ [.published y]) where
  receiver_lt := k.receiver_lt
  injective := k.injective
  queue := k.queue
  channel_lt := by simpa [List.filterMap_append, made?] using k.channel_lt
  channel_injective := by simpa [List.filterMap_append, made?] using k.channel_injective
  told_nil m hm := by simpa [toldTo_concat, told?] using k.told_nil m hm
  told before name r later m heq hr := by
    obtain ⟨-, -, hlast⟩ | ⟨later', rfl, heq'⟩ := concat_cases heq
    · cases hlast
    · simp only [toldTo_concat, due_concat, told?, Option.toList_none, List.append_nil]
      exact (k.told _ _ _ _ m heq' hr).trans (List.prefix_append _ _)
  queued before name r later m q heq hr hq := by
    obtain ⟨-, -, hlast⟩ | ⟨later', rfl, heq'⟩ := concat_cases heq
    · cases hlast
    · have hqueued := k.queued _ _ _ _ m q heq' hr hq
      rw [due_concat, ← hqueued, hnumbers.owed_standingFor (mem_made heq')]
      simp [toldTo_concat, told?, owed, published?, ← hnumbers.mem_ended_iff heq']

/-- A receiver takes the first notice of its queue. -/
theorem received (k : Receives s x rs T) (hq : s.queues.get? m = some (y :: q))
    (hm : m < s.nextReceiver) :
    Receives { s with queues := s.queues.put m q } x rs (T ++ [.received m y]) where
  receiver_lt := k.receiver_lt
  injective := k.injective
  queue name' m' hm' := by
    rw [Table.get?_put]
    split
    · exact ⟨_, rfl⟩
    · exact k.queue name' m' hm'
  channel_lt := by simpa [List.filterMap_append, made?] using k.channel_lt
  channel_injective := by simpa [List.filterMap_append, made?] using k.channel_injective
  told_nil m' hm' := by
    have hne : m ≠ m' := (hm.trans_le hm').ne
    simpa [toldTo_concat, told?, hne] using k.told_nil m' hm'
  told before name r later m' heq hr := by
    obtain ⟨-, -, hlast⟩ | ⟨later', rfl, heq'⟩ := concat_cases heq
    · cases hlast
    · rw [due_concat, toldTo_concat]
      by_cases hm' : m = m'
      · subst hm'
        have hqueued := k.queued _ _ _ _ m _ heq' hr hq
        simp only [told?, published?, if_true, ← hqueued]
        simp
      · simpa [told?, published?, hm'] using k.told _ _ _ _ m' heq' hr
  queued before name r later m' q' heq hr hq' := by
    obtain ⟨-, -, hlast⟩ | ⟨later', rfl, heq'⟩ := concat_cases heq
    · cases hlast
    · rw [due_concat, toldTo_concat]
      rw [Table.get?_put] at hq'
      split at hq'
      · next hm' =>
        subst hm'
        obtain rfl := Option.some.inj hq'
        have hqueued := k.queued _ _ _ _ m' _ heq' hr hq
        simp [told?, published?, ← hqueued]
      · next hm' =>
        simpa [told?, published?, Ne.symm hm'] using k.queued _ _ _ _ m' q' heq' hr hq'

/-- A receiver is closed. -/
theorem closed (k : Receives s x rs T) (hm : s.receivers.get? name = some m) :
    Receives { s with receivers := s.receivers.erase name, queues := s.queues.erase m } x rs T where
  receiver_lt name' m' hm' := by
    rw [Table.get?_erase] at hm'
    split at hm'
    · cases hm'
    · exact k.receiver_lt name' m' hm'
  injective name₁ name₂ m' h₁ h₂ := by
    rw [Table.get?_erase] at h₁ h₂
    split at h₁
    · cases h₁
    · split at h₂
      · cases h₂
      · exact k.injective name₁ name₂ m' h₁ h₂
  queue name' m' hm' := by
    rw [Table.get?_erase] at hm'
    split at hm'
    · cases hm'
    · next hne =>
      rw [Table.get?_erase_of_ne]
      · exact k.queue name' m' hm'
      · rintro rfl
        exact hne (k.injective name name' m' hm hm')
  channel_lt := k.channel_lt
  channel_injective := k.channel_injective
  told_nil := k.told_nil
  told := k.told
  queued before name' r later m' q heq hr hq := by
    rw [Table.get?_erase] at hq
    split at hq
    · cases hq
    · exact k.queued before name' r later m' q heq hr hq

end Receives

end DurableFlow
