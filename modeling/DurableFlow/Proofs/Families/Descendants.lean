import DurableFlow.Proofs.Families.Members
import DurableFlow.Proofs.Histories.Stories

/-!
# Families of tasks

Every member of an engine descends from a task that was started from outside. `Engine.family` tells
of the numbers that are drawn in the course of a history whether they belong to a family, if it is
told of those of the tasks that are started.

Main statements: what a member draws belongs to its family (`Engine.Sound.isHereditary_family`), and
what holds of the members that are started and is handed on holds of the whole family
(`Engine.Handed.after`).
-/

namespace DurableFlow

namespace Act

/-- The task that is taken on by an act. -/
def advanced? : Act → Option Nat
  | advance n => some n
  | _ => none

theorem eq_of_advanced {a : Act} {n : Nat} (h : n ∈ a.advanced?) : a = advance n := by
  cases a with
  | advance => cases h; rfl
  | _ => cases h

end Act

namespace Engine

/-- Whose the numbers are once a task has drawn one: it is its own. -/
def draw (e : Engine) (own : Nat → Bool) : Act → Nat → Bool
  | .advance n =>
    if e.next < (e.act (.advance n)).next then Function.update own e.next (own n) else own
  | _ => own

/-- Whose the numbers are that are drawn by an act: a task that goes on after a delay belongs to the
delay, whose number comes first in its token. -/
def assign (e : Engine) (own : Nat → Bool) (a : Act) : Nat → Bool :=
  match e.woken? a with
  | some t => Function.update (e.draw own a) t.number (e.draw own a (t.token.path.headD 0))
  | none => e.draw own a

/-- The numbers that belong to a family after a history, if `own` tells which of the tasks that are
started do. -/
def family (own : Nat → Bool) (e : Engine) : List Act → Nat → Bool
  | [] => own
  | a :: as => (e.act a).family (e.assign own a) as

/-- What is drawn by an act belongs to those who draw it. -/
structure Inherits (own : Nat → Bool) (e : Engine) (a : Act) : Prop where
  drawn : ∀ n, a = .advance n → e.next < (e.act a).next → own e.next = own n
  woken : ∀ t ∈ e.woken? a, own t.number = own (t.token.path.headD 0)

instance (own : Nat → Bool) (e : Engine) (a : Act) : Decidable (e.Inherits own a) :=
  decidable_of_iff
    ((∀ n ∈ a.advanced?, e.next < (e.act a).next → own e.next = own n) ∧
      ∀ t ∈ e.woken? a, own t.number = own (t.token.path.headD 0))
    ⟨fun ⟨hdrawn, hwoken⟩ => ⟨fun n ha => hdrawn n (by rw [ha]; rfl), hwoken⟩,
      fun h => ⟨fun n hn => h.drawn n (Act.eq_of_advanced hn), h.woken⟩⟩

/-- Throughout a history, what is drawn belongs to those who draw it. -/
def IsHereditary (own : Nat → Bool) (e : Engine) (as : List Act) : Prop :=
  ∀ before a after, as = before ++ a :: after → (e.after before).Inherits own a

variable {S : Standard} {e : Engine} {a : Act} {own : Nat → Bool}

theorem draw_of_lt (e : Engine) (own : Nat → Bool) (a : Act) {k : Nat} (hk : k < e.next) :
    e.draw own a k = own k := by
  unfold draw
  split
  · split
    · exact Function.update_of_ne (Nat.ne_of_lt hk) _ _
    · rfl
  · rfl

theorem le_number_of_woken {t : Task} (h : t ∈ e.woken? a) : e.next ≤ t.number := by
  unfold woken? at h
  split at h
  · cases h
  · simpa using List.find?_some h

/-- A number is assigned once. -/
theorem assign_of_lt (e : Engine) (own : Nat → Bool) (a : Act) {k : Nat} (hk : k < e.next) :
    e.assign own a k = own k := by
  unfold assign
  cases ht : e.woken? a with
  | none => exact draw_of_lt e own a hk
  | some t =>
    have hle := le_number_of_woken ht
    exact (Function.update_of_ne (by omega) _ _).trans (draw_of_lt e own a hk)

theorem Sound.next_le (h : e.Sound S) (a : Act) : e.next ≤ (e.act a).next := by
  obtain ⟨M, R, woken, hpassage⟩ := h.passage a
  exact hpassage.le_next

/-- What is up to a standard is sound if nothing is known. -/
theorem Sound.to_any (h : e.Sound S) : e.Sound .any where
  numbers := h.numbers
  lt_next := h.lt_next
  tasks t ht := by
    refine ⟨fun f hf => ?_, (h.tasks t ht).calling⟩
    have hsound := (h.tasks t ht).frames f hf
    cases f with
    | driving o c stage => exact ⟨trivial, hsound.2⟩
    | listening k => exact hsound
    | _ => trivial
  armed _ _ := trivial
  runners _ _ _ _ _ _ := trivial

theorem Sound.act_any (h : e.Sound .any) (a : Act) : (e.act a).Sound .any := (h.act a.meets_any).1

theorem Sound.after_any (h : e.Sound .any) (as : List Act) : (e.after as).Sound .any :=
  h.after fun a _ => a.meets_any

theorem Sound.cancelled_suffix_after (h : e.Sound .any) (as : List Act) :
    e.cancelled <:+ (e.after as).cancelled := by
  induction as generalizing e with
  | nil => exact List.suffix_rfl
  | cons a as ih => exact (h.retains a).cancelled.trans (ih (h.act_any a))

/-- Chains rest under tokens that end with the numbers of their delays. -/
def IsMarked (e : Engine) : Prop := ∀ m ∈ e.members, m.IsMarked e.next

theorem Sound.isMarked_act (h : e.Sound S) (hm : e.IsMarked) (a : Act) : (e.act a).IsMarked := by
  obtain ⟨M, R, woken, hpassage⟩ := h.passage a
  exact hpassage.isMarked hm

theorem Sound.isMarked_after (h : e.Sound .any) (hm : e.IsMarked) (as : List Act) :
    (e.after as).IsMarked := by
  induction as generalizing e with
  | nil => exact hm
  | cons a as ih => exact ih (h.act_any a) (h.isMarked_act hm a)

theorem IsNew.members_eq (h : e.IsNew) : e.members = 0 := by
  rw [members, h.tasks, h.armed]
  rfl

/-- Nobody is there before anything has happened. -/
theorem IsNew.not_mem_members (h : e.IsNew) (m : Member) : m ∉ (e.after []).members := by
  rw [after_nil, h.members_eq]
  exact Multiset.notMem_zero m

theorem IsNew.isMarked (h : e.IsNew) : e.IsMarked :=
  fun m hm => absurd hm (h.not_mem_members m)

theorem Sound.family_of_lt (h : e.Sound .any) (own : Nat → Bool) (as : List Act) {k : Nat}
    (hk : k < e.next) : e.family own as k = own k := by
  induction as generalizing e own with
  | nil => rfl
  | cons a as ih =>
    have hlt := Nat.lt_of_lt_of_le hk (h.next_le a)
    exact (ih (h.act_any a) _ hlt).trans (assign_of_lt e own a hk)

theorem Sound.next_le_after (h : e.Sound .any) (as : List Act) : e.next ≤ (e.after as).next := by
  induction as generalizing e with
  | nil => exact le_rfl
  | cons a as ih => exact (h.next_le a).trans (ih (h.act_any a))

/-- A number that has not been drawn yet is not assigned. -/
theorem Sound.assign_of_le (h : e.Sound S) (hm : e.IsMarked) (own : Nat → Bool) (a : Act) {k : Nat}
    (hk : (e.act a).next ≤ k) : e.assign own a k = own k := by
  obtain ⟨M, R, woken, hpassage⟩ := h.passage a
  have hdraw : e.draw own a k = own k := by
    unfold draw
    split
    · split
      · rename_i hdrawn
        exact Function.update_of_ne (by omega) _ _
      · rfl
    · rfl
  unfold assign
  rw [hpassage.woken?_eq hm]
  cases hx : woken with
  | none => exact hdraw
  | some x =>
    have hdrawn := hpassage.drawn (Option.isSome_of_mem hx)
    have hne : k ≠ (x.task ((e.act a).next - 1)).number := by
      show k ≠ (e.act a).next - 1
      omega
    exact (Function.update_of_ne hne _ _).trans hdraw

theorem next_lt_of_opening {token : Token} {f : Frame} (ha : a.opening? = some (token, f)) :
    e.next < (e.act a).next := by
  cases a with
  | run => exact Nat.lt_succ_self _
  | resume => exact Nat.lt_succ_self _
  | _ => cases ha

/-- Tasks that are started at different times have different numbers. -/
theorem Sound.opening_unique (h : e.Sound .any) {before before' after after' : List Act} {a' : Act}
    {token token' : Token} {f f' : Frame} (heq : before ++ a :: after = before' ++ a' :: after')
    (ha : a.opening? = some (token, f)) (ha' : a'.opening? = some (token', f'))
    (hnext : (e.after before).next = (e.after before').next) : before = before' := by
  have later : ∀ {before ys : List Act} {a token f}, a.opening? = some (token, f) →
      (e.after before).next < (e.after (before ++ a :: ys)).next := by
    intro before ys a token f ha
    rw [after_append]
    exact Nat.lt_of_lt_of_le (next_lt_of_opening ha)
      (((h.after_any before).act_any a).next_le_after ys)
  obtain ⟨x, rfl, hx⟩ | ⟨x, rfl, hx⟩ := List.append_eq_append_iff.1 heq
  · cases x with
    | nil => exact (List.append_nil _).symm
    | cons y ys =>
      obtain ⟨rfl, -⟩ := List.cons.inj hx
      exact absurd hnext (Nat.ne_of_lt (later ha))
  · cases x with
    | nil => exact List.append_nil _
    | cons y ys =>
      obtain ⟨rfl, -⟩ := List.cons.inj hx
      exact absurd hnext.symm (Nat.ne_of_lt (later ha'))

/-- A task that is started belongs to the family if it is told so. -/
theorem Sound.family_of_opening (h : e.Sound .any) (hm : e.IsMarked) (own : Nat → Bool)
    {before after : List Act} {token : Token} {f : Frame} (ha : a.opening? = some (token, f)) :
    e.family own (before ++ a :: after) (e.after before).next = own (e.after before).next := by
  induction before generalizing e own with
  | nil =>
    have hlt := next_lt_of_opening (e := e) ha
    have hassign : e.assign own a = own := by
      cases a with
      | run => rfl
      | resume => rfl
      | _ => cases ha
    show (e.act a).family (e.assign own a) after e.next = own e.next
    rw [(h.act_any a).family_of_lt _ _ hlt, hassign]
  | cons b before ih =>
    have hle := (h.act_any b).next_le_after before
    exact (ih (h.act_any b) (h.isMarked_act hm b) _).trans (h.assign_of_le hm own b hle)

/-- A number that nobody draws is not assigned. -/
theorem lt_of_drawn (h : e.Sound S) {n : Nat} (hdrawn : e.next < (e.act (.advance n)).next) :
    n < e.next := by
  cases ht : e.task? n with
  | none =>
    have hact : e.act (.advance n) = e := Engine.act_advance_none ht
    rw [hact] at hdrawn
    omega
  | some t =>
    obtain ⟨hmem, rfl⟩ := task?_eq_some ht
    exact h.lt_next t hmem

theorem Sound.inherits_assign (h : e.Sound S) (hm : e.IsMarked) (own : Nat → Bool) (a : Act) :
    e.Inherits (e.assign own a) a := by
  obtain ⟨M, R, woken, hpassage⟩ := h.passage a
  have hwoken := hpassage.woken?_eq hm
  constructor
  · rintro n rfl hdrawn
    have hown : e.draw own (.advance n) e.next = own n := by
      simp only [draw, if_pos hdrawn, Function.update_self]
    rw [assign_of_lt e own _ (lt_of_drawn h hdrawn), ← hown]
    unfold assign
    cases hx : woken with
    | none => rw [hwoken, hx]; rfl
    | some x =>
      have hlate := hpassage.late (Option.isSome_of_mem hx) n rfl
      have hne : e.next ≠ (x.task ((e.act (.advance n)).next - 1)).number := by
        show e.next ≠ (e.act (.advance n)).next - 1
        omega
      rw [hwoken, hx]
      exact Function.update_of_ne hne _ _
  · intro t ht
    rw [hwoken] at ht
    obtain ⟨x, hx, rfl⟩ := Option.map_eq_some_iff.1 ht
    obtain ⟨hhead, hlt⟩ := hpassage.delay_lt hm hx
    have hassign : e.assign own a = Function.update (e.draw own a) ((e.act a).next - 1)
        (e.draw own a (x.token.path.headD 0)) := by
      rw [assign, hwoken, ht]
      rfl
    show e.assign own a ((e.act a).next - 1) = e.assign own a (x.token.path.headD 0)
    rw [hassign, hhead, Function.update_self, Function.update_of_ne (Nat.ne_of_lt hlt)]

/-- **What a member draws belongs to its family.** -/
theorem Sound.isHereditary_family (h : e.Sound .any) (hm : e.IsMarked) (own : Nat → Bool)
    (as : List Act) : e.IsHereditary (e.family own as) as := by
  rintro before a after rfl
  induction before generalizing e own with
  | cons b before ih => exact ih (h.act_any b) (h.isMarked_act hm b) _
  | nil =>
    rw [after_nil]
    have hinherits := h.inherits_assign hm own a
    have hfamily : ∀ k < (e.act a).next,
        (e.act a).family (e.assign own a) after k = e.assign own a k :=
      fun k hk => (h.act_any a).family_of_lt _ _ hk
    obtain ⟨M, R, woken, hpassage⟩ := h.passage a
    constructor
    · rintro n rfl hdrawn
      have hlt := lt_of_drawn h hdrawn
      show (e.act _).family _ _ _ = (e.act _).family _ _ _
      rw [hfamily _ hdrawn, hfamily n (by omega)]
      exact hinherits.drawn n rfl hdrawn
    · intro t ht
      have hown := hinherits.woken t ht
      rw [hpassage.woken?_eq hm] at ht
      obtain ⟨x, hx, rfl⟩ := Option.map_eq_some_iff.1 ht
      obtain ⟨hhead, hlt⟩ := hpassage.delay_lt hm hx
      have hdrawn := hpassage.drawn (Option.isSome_of_mem hx)
      show (e.act a).family _ _ ((e.act a).next - 1) = (e.act a).family _ _ (x.token.path.headD 0)
      rw [hfamily _ (by omega), hfamily _ (by omega)]
      exact hown

/-! ## What a family does -/

/-- Whether an act takes on, drops or cuts off a member of a family. -/
def concerns (e : Engine) (own : Nat → Bool) : Act → Bool
  | .advance n | .cut n => own n
  | .drop place => e.scheduler.timers.armed[place]?.any fun x => own x.work.delay
  | _ => false

/-- What is done for the chains of a family in the course of a history. -/
def doings (own : Nat → Bool) (e : Engine) : List Act → List (Chain × Deed)
  | [] => []
  | a :: as => (if e.concerns own a then e.deeds a else []) ++ (e.act a).doings own as

theorem doings_append (own : Nat → Bool) (e : Engine) (as bs : List Act) :
    e.doings own (as ++ bs) = e.doings own as ++ (e.after as).doings own bs := by
  induction as generalizing e with
  | nil => rfl
  | cons a as ih => simp only [List.cons_append, doings, ih, after_cons, List.append_assoc]

theorem doings_concat (own : Nat → Bool) (e : Engine) (as : List Act) (a : Act) :
    e.doings own (as ++ [a]) =
      e.doings own as ++ if (e.after as).concerns own a then (e.after as).deeds a else [] := by
  simp [doings_append, doings]

/-- Everything that is done is done for the family of all. -/
theorem doings_all (e : Engine) (as : List Act) : e.doings (fun _ => true) as = e.chronicle as := by
  induction as generalizing e with
  | nil => rfl
  | cons a as ih =>
    have hdeeds : (if e.concerns (fun _ => true) a then e.deeds a else []) = e.deeds a := by
      cases a with
      | drop place => cases hx : e.scheduler.timers.armed[place]? <;> simp [concerns, deeds, hx]
      | _ => rfl
    rw [doings, chronicle, hdeeds, ih]

theorem isHereditary_all (e : Engine) (as : List Act) : e.IsHereditary (fun _ => true) as :=
  fun _ _ _ _ => ⟨fun _ _ _ => rfl, fun _ _ => rfl⟩

/-- The others are a family, too. -/
theorem IsHereditary.not (h : e.IsHereditary own as) : e.IsHereditary (fun k => !own k) as :=
  fun before a after heq =>
    ⟨fun n ha hlt => congrArg (!·) ((h before a after heq).drawn n ha hlt),
      fun t ht => congrArg (!·) ((h before a after heq).woken t ht)⟩

theorem IsHereditary.left {as bs : List Act} (h : e.IsHereditary own (as ++ bs)) :
    e.IsHereditary own as := by
  rintro before a after rfl
  exact h before a (after ++ bs) (by simp)

/-- **What holds of the members of a family is handed on by an act**, if turns of tasks hand it on,
and if it holds of a task that is started. -/
theorem Sound.hands_on {P : Member → Prop} (h : e.Sound S) (hmarked : e.IsMarked)
    (hinherits : e.Inherits own a) (hbefore : ∀ m ∈ e.members, own m.number = true → P m)
    (hturn : ∀ {t rested left}, a = .advance t.number → .task t ∈ e.members →
      own t.number = true → e.Yields t (e.deeds a) rested left →
        (∀ t' ∈ left, P (.task t')) ∧ ∀ x ∈ rested, P (.timer x))
    (hstart : ∀ token f, a.opening? = some (token, f) → own e.next = true →
      P (.task ⟨e.next, token, false, [f]⟩))
    (hwoken : ∀ x n, x.task n ∈ e.woken? a → P (.timer x) → P (.task (x.task n))) :
    ∀ m ∈ (e.act a).members, own m.number = true → P m := by
  obtain ⟨M, R, woken, hpassage⟩ := h.passage a
  have haltered : ∀ m ∈ M, own m.number = true → P m := by
    intro m hm hmown
    cases hpassage.alters.comes m hm with
    | keep hm => exact hbefore m hm hmown
    | @left t _ _ t' ht ha hyields ht' =>
      have htown : own t.number = true := hyields.number t' ht' ▸ hmown
      exact (hturn ha ht htown hyields).1 t' ht'
    | @rested t _ _ x ht ha hyields hnext hx =>
      obtain ⟨-, hdelay⟩ := hyields.turns.of_rested x hx
      have htown : own t.number = true := by
        rw [← hinherits.drawn t.number ha hnext, ← hdelay]
        exact hmown
      exact (hturn ha ht htown hyields).2 x hx
    | start ha _ => exact hstart _ _ ha hmown
  intro m hm hmown
  obtain ⟨x, hx, rfl⟩ | hm := hpassage.mem_cases hm
  · obtain ⟨hhead, -⟩ := hpassage.delay_lt hmarked hx
    have hwake : x.task ((e.act a).next - 1) ∈ e.woken? a := by
      rw [hpassage.woken?_eq hmarked, hx]
      rfl
    have hxown : own x.work.delay = true := by
      rw [← hhead]
      exact (hinherits.woken _ hwake).symm.trans hmown
    exact hwoken x _ hwake (haltered _ (hpassage.mem_of_woken hx) hxown)
  · exact haltered m (hpassage.mem_of_mem_rest hm) hmown

/-- What holds of the members of a family after a history, if it holds of those that are started,
stays true when others act, and is handed on. -/
structure Handed (P : List (Chain × Deed) → Member → Prop) : Prop where
  mono : ∀ {l m}, P l m → ∀ l', P (l ++ l') m
  left : ∀ {e : Engine} {l t ds rested left}, e.Yields t ds rested left → P l (.task t) →
    ∀ t' ∈ left, P (l ++ ds) (.task t')
  rested : ∀ {e : Engine} {l t ds rested left}, e.Yields t ds rested left → P l (.task t) →
    ∀ x ∈ rested, P (l ++ ds) (.timer x)
  woken : ∀ {l x}, P l (.timer x) → ∀ n, P l (.task (x.task n))

/-- **What is handed on holds of all members of a family.** -/
theorem Handed.after {P : List (Chain × Deed) → Member → Prop} (hP : Handed P) (h : e.IsNew)
    {as : List Act} (hown : e.IsHereditary own as)
    (hstart : ∀ before a after token f, as = before ++ a :: after →
      a.opening? = some (token, f) → own (e.after before).next = true →
      P (e.doings own before) (.task ⟨(e.after before).next, token, false, [f]⟩)) :
    ∀ m ∈ (e.after as).members, own m.number = true → P (e.doings own as) m := by
  induction as using List.reverseRecOn with
  | nil => exact fun m hm => absurd hm (h.not_mem_members m)
  | append_singleton as a ih =>
    have hsound : (e.after as).Sound .any := (h.sound .any).after_any as
    have hmarked : (e.after as).IsMarked := (h.sound .any).isMarked_after h.isMarked as
    have ih := ih hown.left fun before b after token f has =>
      hstart before b (after ++ [a]) token f (by simp [has])
    rw [doings_concat, after_concat]
    refine hsound.hands_on hmarked (hown as a [] rfl) (fun m hm hmown => hP.mono (ih m hm hmown) _)
      ?_ (fun token f ha hmown => hP.mono (hstart as a [] token f rfl ha hmown) _)
      fun x n _ hx => hP.woken hx n
    rintro t rested left rfl ht htown hyields
    have hconcerns : (e.after as).concerns own (.advance t.number) = true := htown
    rw [if_pos hconcerns]
    exact ⟨hP.left hyields (ih _ ht htown), hP.rested hyields (ih _ ht htown)⟩

theorem handed_isWaiting :
    Handed fun _ m => ∀ t, m = .task t → t.parked = true → t.isWaiting = true where
  mono h _ := h
  left h _ t' ht' := by
    rintro _ ⟨⟩
    exact h.waiting t' ht'
  rested _ _ _ _ := nofun
  woken _ _ := by
    rintro _ ⟨⟩
    exact nofun

/-- A task that is parked waits. -/
theorem IsNew.isWaiting (h : e.IsNew) (as : List Act) {t : Task}
    (ht : t ∈ (e.after as).tasks)
    (hp : t.parked = true) : t.isWaiting = true := by
  refine handed_isWaiting.after h (isHereditary_all e as) ?_ _ (task_mem_members ht) rfl t rfl hp
  rintro before a after token f - - - _ ⟨⟩
  exact nofun

end Engine

end DurableFlow
