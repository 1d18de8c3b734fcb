import DurableFlow.Proofs.Services.BusHistories
import Mathlib.Data.List.Nodup
import Mathlib.Data.List.TakeWhile

/-!
# Subscriptions that stand

Which subscriptions stand after what has happened to a switchboard, and what is due to them. Each
subscription has a number of its own (`Numbers`); the registrations are the subscriptions that stand,
and the handles belong to some of them (`Handles`).

Main statements: what is published is owed once to each subscription to its topic that stands
(`Happening.Numbers.owed_standingFor`); a subscription that ends takes its own registration along
(`Handles.ended`).
-/

namespace DurableFlow

namespace Happening

variable {T before later : List Happening} {h h' : Happening} {r : Registration Listener}
  {n m : Nat} {x : Notice} {topic : Topic} {name : String}

/-- What a receiver has been told. -/
def toldTo (receiver : Nat) (T : List Happening) : List Notice := T.filterMap (told? receiver)

/-- The calls up to the next publication. -/
def round (later : List Happening) : List (Registration Listener × Notice) :=
  (later.takeWhile fun h => h.published?.isNone).filterMap called?

/-- The notice of a publication that goes on, as often as it is still owed to the subscription of
that number. -/
def owed (x : Notice) (rs : List (Registration Listener)) (number : Nat) : List Notice :=
  (rs.filter fun r => r.number = number).map fun _ => x

/-- Where something has happened, when one more thing happens. -/
theorem concat_cases (heq : T ++ [h] = before ++ h' :: later) :
    (later = [] ∧ T = before ∧ h = h') ∨
      ∃ later', later = later' ++ [h] ∧ T = before ++ h' :: later' := by
  obtain rfl | ⟨later', h'', rfl⟩ := List.eq_nil_or_concat later
  · obtain ⟨rfl, hlast⟩ := List.append_inj' heq rfl
    exact .inl ⟨rfl, rfl, (List.cons.inj hlast).1⟩
  · rw [List.concat_eq_append, ← List.cons_append, ← List.append_assoc] at heq
    obtain ⟨rfl, hlast⟩ := List.append_inj' heq rfl
    obtain rfl := (List.cons.inj hlast).1
    exact .inr ⟨later', List.concat_eq_append .., rfl⟩

theorem mem_made (heq : T = before ++ .made name r :: later) : r ∈ T.filterMap made? := by
  simp [heq, made?]

/-! ## One more thing happens -/

theorem takeWhile_concat {α : Type} (p : α → Bool) (l : List α) (a : α) :
    (l ++ [a]).takeWhile p = l.takeWhile p ++ if l.all p && p a then [a] else [] := by
  induction l with
  | nil => cases hp : p a <;> simp [hp]
  | cons b l ih => cases hp : p b <;> simp [hp, ih]

theorem filterMap_concat_of_none {α : Type} {f : Happening → Option α} (hf : f h = none) :
    (T ++ [h]).filterMap f = T.filterMap f := by
  simp [List.filterMap_append, hf]

/-- What stands changes when a subscription is made or ends. -/
theorem standing_concat (hmade : h.made? = none) (hended : h.ended? = none) :
    standing (T ++ [h]) = standing T := by
  simp [standing, List.filterMap_append, hmade, hended]

theorem standing_made (hn : r.number ∉ T.filterMap ended?) :
    standing (T ++ [.made name r]) = standing T ++ [r] := by
  simp only [standing, List.filterMap_append, List.filterMap_cons, made?, ended?,
    List.filterMap_nil, List.append_nil, List.filter_append, List.filter_cons, List.filter_nil]
  rw [if_pos (by simpa only [decide_eq_true_eq] using hn)]

theorem standing_ended :
    standing (T ++ [.ended n]) = (standing T).filter fun r => r.number ≠ n := by
  simp only [standing, List.filterMap_append, List.filter_filter]
  simp only [List.filterMap_cons, made?, ended?, List.filterMap_nil, List.append_nil]
  refine List.filter_congr fun r _ => ?_
  simp [and_comm]

/-- One more thing is due if it is published before the subscription ends. -/
theorem due_concat (r : Registration Listener) (later : List Happening) (h : Happening) :
    due r (later ++ [h]) = due r later ++
      if r.number ∈ later.filterMap ended? then []
      else h.published?.toList.filter fun x => x.topic = r.topic := by
  have hall : (later.all fun h => h.ended? ≠ some r.number) = true ↔
      r.number ∉ later.filterMap ended? := by
    simp [List.mem_filterMap]
  rw [due, takeWhile_concat, List.filterMap_append, List.filter_append]
  by_cases hn : r.number ∈ later.filterMap ended?
  · have hnot : (later.all fun h => h.ended? ≠ some r.number) = false :=
      Bool.eq_false_iff.2 (mt hall.1 (not_not.2 hn))
    rw [hnot, if_pos hn]
    rfl
  · rw [hall.2 hn, if_neg hn]
    cases h with
    | ended n => by_cases hr : n = r.number <;> simp [due, ended?, published?, hr]
    | _ => simp [due, ended?, published?]

theorem round_concat (later : List Happening) (h : Happening) :
    round (later ++ [h]) = round later ++
      if later.all fun h => h.published?.isNone then h.called?.toList else [] := by
  rw [round, takeWhile_concat, List.filterMap_append]
  cases later.all fun h => h.published?.isNone
  · rfl
  · cases h <;> rfl

/-! ## The numbers of the subscriptions -/

/-- Each subscription has a number of its own, below the next one, and ends only after it is made. -/
structure Numbers (next : Nat) (T : List Happening) : Prop where
  nodup : ((T.filterMap made?).map Registration.number).Nodup
  made_lt : ∀ r ∈ T.filterMap made?, r.number < next
  ended_lt : ∀ n ∈ T.filterMap ended?, n < next
  unended : ∀ before name r later, T = before ++ .made name r :: later →
    r.number ∉ before.filterMap ended?

namespace Numbers

variable {next : Nat} {r' : Registration Listener}

theorem nil : Numbers 0 [] := ⟨by simp, by simp, by simp, by simp⟩

theorem concat (k : Numbers next T) (hmade : h.made? = none)
    (hended : ∀ n, h.ended? = some n → n < next) : Numbers next (T ++ [h]) where
  nodup := by simpa [List.filterMap_append, hmade] using k.nodup
  made_lt := by simpa [List.filterMap_append, hmade] using k.made_lt
  ended_lt n hn := by
    rw [List.filterMap_append, List.mem_append] at hn
    obtain hn | hn := hn
    · exact k.ended_lt n hn
    · exact hended n (by simpa using hn)
  unended before name r later heq := by
    obtain ⟨-, -, rfl⟩ | ⟨later', -, heq'⟩ := concat_cases heq
    · cases hmade
    · exact k.unended before name r later' heq'

theorem made (k : Numbers next T) (name : String) (topic : Topic) (l : Listener) :
    Numbers (next + 1) (T ++ [.made name ⟨next, topic, l⟩]) where
  nodup := by
    simp only [List.filterMap_append, List.map_append]
    refine List.nodup_append.2 ⟨k.nodup, by simp [made?], fun n hn m hm => ?_⟩
    obtain ⟨r, hr, rfl⟩ := List.mem_map.1 hn
    obtain rfl : m = next := by simpa [made?] using hm
    exact (k.made_lt r hr).ne
  made_lt r hr := by
    rw [List.filterMap_append, List.mem_append] at hr
    obtain hr | hr := hr
    · exact Nat.lt_succ_of_lt (k.made_lt r hr)
    · obtain rfl : r = ⟨next, topic, l⟩ := by simpa [made?] using hr
      exact Nat.lt_succ_self _
  ended_lt n hn := by
    have hn : n ∈ T.filterMap ended? := by simpa [List.filterMap_append, ended?] using hn
    exact Nat.lt_succ_of_lt (k.ended_lt n hn)
  unended before name' r later heq := by
    obtain ⟨-, rfl, hlast⟩ | ⟨later', -, heq'⟩ := concat_cases heq
    · obtain ⟨-, rfl⟩ := Happening.made.inj hlast
      exact fun hn => (k.ended_lt _ hn).false
    · exact k.unended before name' r later' heq'

theorem eq_of_number (k : Numbers next T) (hr : r ∈ T.filterMap made?)
    (hr' : r' ∈ T.filterMap made?) (heq : r'.number = r.number) : r' = r :=
  List.inj_on_of_nodup_map k.nodup hr' hr heq

/-- A subscription that has ended has done so after it was made. -/
theorem mem_ended_iff (k : Numbers next T) (heq : T = before ++ .made name r :: later) :
    r.number ∈ T.filterMap ended? ↔ r.number ∈ later.filterMap ended? := by
  have hbefore := k.unended before name r later heq
  rw [heq, List.filterMap_append, List.mem_append, or_iff_right hbefore]
  simp only [List.filterMap_cons, ended?]

/-- What is published is owed once to each subscription to its topic that stands. -/
theorem owed_standingFor (k : Numbers next T) (hr : r ∈ T.filterMap made?) (y : Notice) :
    owed y (standingFor y.topic T) r.number =
      if r.number ∈ T.filterMap ended? then []
      else [y].filter fun x => x.topic = r.topic := by
  have hself : (standingFor y.topic T).filter (fun r' => r'.number = r.number) =
      ([r].filter fun r' => r'.number ∉ T.filterMap ended?).filter fun r' => r'.topic = y.topic := by
    rw [← Table.filter_key_eq k.nodup hr, standingFor, standing, List.filter_comm, List.filter_comm _ _
      (T.filterMap made?)]
  rw [owed, hself]
  by_cases hn : r.number ∈ T.filterMap ended?
  · simp only [List.filter_cons, List.filter_nil, hn, not_true, decide_false]
    rfl
  · simp only [List.filter_cons, List.filter_nil, hn, not_false_iff, decide_true, if_true, if_false]
    by_cases htopic : r.topic = y.topic
    · simp [htopic]
    · simp [htopic, Ne.symm htopic]

end Numbers

end Happening

open Happening

/-! ## The registrations and the handles -/

/-- The subscription that was made last under a name has that number, and stands. -/
def IsHandle (T : List Happening) (name : String) (n : Nat) : Prop :=
  ∃ before r later, T = before ++ .made name r :: later ∧ r.number = n ∧
    (∀ r', .made name r' ∉ later) ∧ n ∉ later.filterMap ended?

theorem IsHandle.concat {T : List Happening} {name : String} {n : Nat} {h : Happening}
    (hhandle : IsHandle T name n) (hmade : ∀ r, h ≠ .made name r) (hended : h.ended? ≠ some n) :
    IsHandle (T ++ [h]) name n := by
  obtain ⟨before, r, later, rfl, hnumber, hlast, hstands⟩ := hhandle
  refine ⟨before, r, later ++ [h], by simp, hnumber, fun r' hr' => ?_, ?_⟩
  · obtain hr' | hr' := List.mem_append.1 hr'
    · exact hlast r' hr'
    · exact hmade r' (List.mem_singleton.1 hr').symm
  · rw [List.filterMap_append, List.mem_append, not_or]
    exact ⟨hstands, by simpa using hended⟩

/-- The registrations are the subscriptions that stand, as long as something holds the bus, and the
names are handles of subscriptions. -/
structure Handles (s : Switchboard) (T : List Happening) : Prop where
  registered : s.bus.registrations =
    if s.isHeld || (standing T).any Switchboard.keepsBus then standing T else []
  handle : ∀ name n, s.subscriptions.get? name = some n → IsHandle T name n
  injective : ∀ name name' n, s.subscriptions.get? name = some n →
    s.subscriptions.get? name' = some n → name' = name

theorem Switchboard.release_eq (s : Switchboard) : s.release = { s with
    bus := { s.bus with registrations :=
      if s.isHeld || s.bus.registrations.any keepsBus then s.bus.registrations else [] } } := by
  unfold release
  split <;> rfl

/-- To hear a notice is to write it down or to queue it. -/
theorem Switchboard.hear_eq (r : Registration Listener) (x : Notice) (s : Switchboard) :
    s.hear r x = { s with
      queues := (s.hear r x).queues
      heard := s.heard ++ (heard? (.called r x)).toList } := by
  obtain ⟨number, topic, _ | m⟩ := r
  · rfl
  · simp only [hear]
    split <;> simp [heard?]

namespace Handles

variable {s : Switchboard} {T : List Happening} {h : Happening} {name : String} {n : Nat}

theorem concat (k : Handles s T) (hmade : h.made? = none) (hended : h.ended? = none) :
    Handles s (T ++ [h]) where
  registered := by rw [standing_concat hmade hended, k.registered]
  handle name n hn := by
    refine (k.handle name n hn).concat (fun r heq => ?_) (by simp [hended])
    simp [heq, made?] at hmade
  injective := k.injective

theorem made (k : Handles s T) (hnumbers : Numbers s.bus.next T) (hheld : s.isHeld = true)
    (name : String) (topic : Topic) (l : Listener) :
    Handles { s with
        bus := (s.bus.subscribe topic l).1
        subscriptions := s.subscriptions.put name s.bus.next }
      (T ++ [.made name ⟨s.bus.next, topic, l⟩]) where
  registered := by
    have hfresh : s.bus.next ∉ T.filterMap ended? := fun hn => (hnumbers.ended_lt _ hn).false
    have hregistered := k.registered
    rw [hheld, Bool.true_or, if_pos rfl] at hregistered ⊢
    rw [standing_made hfresh, ← hregistered]
    rfl
  handle name' n hn := by
    rw [Table.get?_put] at hn
    split at hn
    · next heq =>
      subst heq
      obtain rfl := Option.some.inj hn
      exact ⟨T, _, [], rfl, rfl, by simp, by simp⟩
    · next hne =>
      refine (k.handle name' n hn).concat (fun r heq => ?_) (by simp [ended?])
      exact hne (Happening.made.inj heq).1.symm
  injective name₁ name₂ n h₁ h₂ := by
    have hlt : ∀ name', s.subscriptions.get? name' ≠ some s.bus.next := fun name' hname' => by
      obtain ⟨before, r, later, heq, hnumber, -, -⟩ := k.handle name' _ hname'
      exact (hnumbers.made_lt r (mem_made heq)).ne hnumber
    rw [Table.get?_put] at h₁ h₂
    split at h₁ <;> split at h₂
    · next heq₁ heq₂ => exact heq₂.trans heq₁.symm
    · obtain rfl := Option.some.inj h₁
      exact (hlt _ h₂).elim
    · obtain rfl := Option.some.inj h₂
      exact (hlt _ h₁).elim
    · exact k.injective name₁ name₂ n h₁ h₂

/-- A subscription without a handle may end. -/
theorem ended (k : Handles s T) (hn : ∀ name, s.subscriptions.get? name ≠ some n) :
    Handles (s.endRegistration n) (T ++ [.ended n]) where
  registered := by
    have hregistered : (s.bus.unsubscribe n).registrations =
        if s.isHeld || (standing T).any Switchboard.keepsBus then
          standing (T ++ [.ended n]) else [] := by
      rw [standing_ended, Bus.unsubscribe, k.registered]
      split <;> rfl
    have hless : (standing (T ++ [.ended n])).any Switchboard.keepsBus = true →
        (standing T).any Switchboard.keepsBus = true := by
      rw [standing_ended, List.any_eq_true, List.any_eq_true]
      rintro ⟨r, hr, hkeeps⟩
      exact ⟨r, List.mem_of_mem_filter hr, hkeeps⟩
    rw [Switchboard.endRegistration, Switchboard.release_eq]
    simp only [hregistered]
    cases hheld : s.isHeld <;> cases hany : (standing T).any Switchboard.keepsBus <;> simp_all
  handle name' n' hn' := by
    rw [Switchboard.endRegistration, Switchboard.release_eq] at hn'
    refine (k.handle name' n' hn').concat (by simp) fun heq => ?_
    obtain rfl := Option.some.inj heq
    exact hn name' hn'
  injective := by
    rw [Switchboard.endRegistration, Switchboard.release_eq]
    exact k.injective

/-- A handle is lost. -/
theorem erase (k : Handles s T) (name : String) :
    Handles { s with subscriptions := s.subscriptions.erase name } T where
  registered := k.registered
  handle name' n hn := by
    rw [Table.get?_erase] at hn
    split at hn
    · cases hn
    · exact k.handle name' n hn
  injective name₁ name₂ n h₁ h₂ := by
    rw [Table.get?_erase] at h₁ h₂
    split at h₁
    · cases h₁
    · split at h₂
      · cases h₂
      · exact k.injective name₁ name₂ n h₁ h₂

theorem dropBus (k : Handles s T) : Handles s.dropBus T := by
  rw [Switchboard.dropBus, Switchboard.release_eq]
  refine ⟨?_, k.handle, k.injective⟩
  have hregistered := k.registered
  simp only [hregistered, Bool.false_or]
  cases s.isHeld <;> cases hany : (standing T).any Switchboard.keepsBus <;> simp [hany]

end Handles

end DurableFlow
