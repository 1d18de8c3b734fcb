import DurableFlow.Proofs.Histories.ChainLives
import DurableFlow.Proofs.Termination.Ranks

/-!
# Chains whose jumps go forward

How far a chain gets whose jumps go forward: it executes at most the steps from its start on, one
each, and the positions that are saved for it grow, up to the one of a step that waits, which is
saved again (`Recalls.isBounded`). If its steps all go on, at once or after a delay, and nothing
befalls it, it executes every one of them, and saves the position behind each
(`Recalls.isComplete`).
-/

namespace DurableFlow

namespace Deed

/-- The position that is saved. -/
def saved? : Deed → Option Nat
  | .saved next => some next
  | _ => none

/-- The positions that are saved, in their order. -/
def saves (l : List Deed) : List Nat := l.filterMap saved?

theorem saves_append (l l' : List Deed) : saves (l ++ l') = saves l ++ saves l' :=
  List.filterMap_append

/-- Whether something befalls a chain on its way to the end: a position is not saved, the news of a
delay are refused, a continuation is not armed or is dropped, a step panics, or the chain is
cancelled or cut off. -/
def isSetback : Deed → Bool
  | .unsaved _ | .unscheduled _ | .halted .cancelled | .panicked | .dropped | .lost => true
  | .refused notice => notice.topic = .delayed
  | _ => false

/-- No step is executed twice, and none before the start; positions grow, until a step waits. -/
structure IsBounded (d : Definition) (p : Nat) (l : List Deed) : Prop where
  executions : (executions l).length ≤ d.size - p
  saves : ∃ ns w, saves l = ns ++ Option.toList w ∧ (p :: ns).Pairwise (· < ·) ∧
    ∀ i ∈ w, (∃ message, .returned i (.wait message) ∈ l) ∧ ∀ n ∈ p :: ns, n ≤ i

/-- Every step from the start on is executed once, and the position behind each is saved. -/
structure IsComplete (d : Definition) (p : Nat) (l : List Deed) : Prop where
  executions : executions l = List.range' p (d.size - p)
  saves : saves l = List.range' (p + 1) (d.size - p)

/-- A round at a step executes at most that step, and saves at most a later position, or its own if
the step waits. -/
structure IsStride (d : Definition) (i : Nat) (r : List Deed) : Prop where
  executions : executions r = [] ∨ (executions r).length = 1 ∧ i < d.size
  saves : saves r = [] ∨ ∃ n, saves r = [n] ∧
    (i < n ∨ n = i ∧ ∃ message, .returned i (.wait message) ∈ r)

/-- The steps that return go on, at once or after a delay. -/
def GoesOn (l : List Deed) : Prop :=
  ∀ i o, .returned i o ∈ l → o = .proceed ∨ ∃ duration, o = .delay duration

/-- Whether a step has not returned anything else. -/
def isOnward : Deed → Bool
  | .returned _ (.jump _) | .returned _ (.wait _) | .returned _ (.failure _) => false
  | _ => true

theorem goesOn_iff {l : List Deed} : GoesOn l ↔ ∀ d ∈ l, d.isOnward = true := by
  refine ⟨fun h d hd => ?_, fun h i o ho => ?_⟩
  · cases d with
    | returned i o =>
      obtain rfl | ⟨duration, rfl⟩ := h i o hd
      · rfl
      · rfl
    | _ => rfl
  · have ho := h _ ho
    cases o with
    | proceed => exact .inl rfl
    | delay duration => exact .inr ⟨duration, rfl⟩
    | _ => cases ho

instance (l : List Deed) : Decidable (GoesOn l) := decidable_of_iff _ goesOn_iff.symm

/-- No turn saves a position. -/
@[simp] theorem saves_deeds (turn : Turn) : saves turn.deeds = [] := by
  cases turn <;> rfl

/-- The position is the one that was saved last. -/
theorem position_eq_getLastD (p : Nat) (l : List Deed) : position p l = (saves l).getLastD p := by
  induction l using List.reverseRecOn with
  | nil => rfl
  | append_singleton l d ih =>
    rw [position_append, saves_append]
    cases d with
    | saved n => exact (List.getLastD_concat ..).symm
    | _ =>
      rw [ih]
      exact congrArg (List.getLastD · p) (List.append_nil _).symm

/-- The same is saved for chains that are chosen in two ways, if these agree on what is saved. -/
theorem saves_of_congr {f g : Chain → Bool} {l : List (Chain × Deed)}
    (h : ∀ x ∈ l, ∀ n, x.2 = .saved n → f x.1 = g x.1) : saves (of f l) = saves (of g l) := by
  induction l with
  | nil => rfl
  | cons x l ih =>
    have hl := ih fun y hy => h y (List.mem_cons_of_mem _ hy)
    have hcons : ∀ k : Chain → Bool, saves (of k (x :: l)) =
        saves (of k [x]) ++ saves (of k l) := fun k => by
      rw [← saves_append, ← of_append, List.singleton_append]
    rw [hcons f, hcons g, hl]
    congr 1
    obtain ⟨c, d⟩ := x
    cases d with
    | saved n => simp only [of, List.filter_singleton, h (c, .saved n) List.mem_cons_self n rfl]
    | _ => cases hf : f c <;> cases hg : g c <;> simp [of, saves, saved?, hf, hg]

end Deed

/-! ## Plans -/

namespace Plan

variable {d : Definition} {c : Context} {i j : Nat} {now : Instant} {o : Outcome}
  {done es : List Effect} {turn : Turn}

theorem saves_of_not_mem (h : ∀ n, .save n ∉ done) (c' : Chain) :
    Deed.saves (done.map (Effect.deed c')) = [] := by
  refine List.filterMap_eq_nil_iff.2 fun d hd => ?_
  obtain ⟨effect, heffect, rfl⟩ := List.mem_map.1 hd
  cases effect with
  | save n => exact absurd heffect (h n)
  | _ => rfl

/-- A step that is followed by another one saves where that is. -/
theorem saves_of_next (h : ofOutcome d c i now o = .ok ⟨es, turn⟩) (hnext : turn.next? = some j)
    (c' : Chain) : Deed.saves (es.map (Effect.deed c')) = [j] := by
  obtain ⟨es', rfl, hes⟩ := save_of_next h hnext
  exact congrArg (j :: ·) (saves_of_not_mem hes c')

/-- A step goes on to the next one, unless it does something else. -/
theorem next_of_goesOn (h : ofOutcome d c i now o = .ok ⟨es, turn⟩) (hnext : turn.next? = some j)
    (ho : o = .proceed ∨ ∃ duration, o = .delay duration) : j = i + 1 := by
  obtain rfl | ⟨duration, rfl⟩ := ho
  · cases h
    cases hnext
    rfl
  · cases h
    cases hnext
    rfl

/-- A step that has returned saves at most one position: a later one, if its jumps go forward, or its
own if it waits. -/
theorem saves_cases (h : ofOutcome d c i now o = .ok ⟨done ++ es, turn⟩)
    (hforward : (Deed.returned i o).IsForward d) (c' : Chain) :
    Deed.saves (done.map (Effect.deed c')) = [] ∨
      ∃ n, Deed.saves (done.map (Effect.deed c')) = [n] ∧
        (i < n ∨ n = i ∧ ∃ message, o = .wait message) := by
  cases done with
  | nil => exact .inl rfl
  | cons effect done =>
    have hrest := saves_of_not_mem (save_not_mem h) c'
    cases effect with
    | publish => exact .inl hrest
    | settle => exact .inl hrest
    | save n =>
      have hplan : ofOutcome d c i now o = .ok ⟨[] ++ .save n :: (done ++ es), turn⟩ := h
      obtain ⟨-, hsaved⟩ := save_first hplan
      refine .inr ⟨n, congrArg (n :: ·) hrest, ?_⟩
      cases o with
      | proceed => cases hsaved; exact .inl (Nat.lt_succ_self i)
      | delay duration => cases hsaved; exact .inl (Nat.lt_succ_self i)
      | wait message => cases hsaved; exact .inr ⟨rfl, message, rfl⟩
      | jump label => exact .inl (hforward n hsaved)
      | failure cause => cases hsaved

end Plan

/-! ## Trails and rounds -/

variable {d : Definition} {p i q : Nat} {T r : List Deed} {c : Chain} {φ : Phase} {x : Deed}

theorem Deed.executions_round (i : Nat) (o : Outcome) (c : Chain) (es : List Effect) (turn : Turn) :
    executions (.executed i :: .returned i o :: (es.map (Effect.deed c) ++ turn.deeds)) = [i] := by
  show i :: executions (es.map (Effect.deed c) ++ turn.deeds) = [i]
  rw [executions_append, executions_map_deed, executions_deeds, List.append_nil]

theorem Deed.saves_round (i : Nat) (o : Outcome) (c : Chain) (es : List Effect) (turn : Turn) :
    saves (.executed i :: .returned i o :: (es.map (Effect.deed c) ++ turn.deeds)) =
      saves (es.map (Effect.deed c)) := by
  show saves (es.map (Effect.deed c) ++ turn.deeds) = _
  rw [saves_append, saves_deeds, List.append_nil]

/-- **Complete rounds execute one step after the other, each a later one**, if jumps go forward. -/
theorem Trail.strides (h : Trail d p T i) (hforward : ∀ y ∈ T, y.IsForward d) :
    (Deed.executions T).length + (d.size - i) ≤ d.size - p ∧
      (p :: Deed.saves T).Pairwise (· < ·) ∧ ∀ n ∈ p :: Deed.saves T, n ≤ i := by
  induction h with
  | start =>
    refine ⟨by simp [Deed.executions, Deed.index?], List.pairwise_singleton .., fun n hn => ?_⟩
    exact (List.mem_singleton.1 hn).le
  | @round T i j o now es turn context c _ hr hplan hnext ih =>
    obtain ⟨hlength, hgrows, hle⟩ := ih fun y hy => hforward y (List.mem_append_left _ hy)
    have hij : i < j := by
      have hjump := hforward (.returned i o) (by simp)
      have hthen : (Plan.mk es turn).turn.next? = some j := hnext
      exact Plan.lt_next hplan hjump hthen
    have hi := hr.lt_size
    rw [Deed.executions_append, Deed.saves_append, Deed.executions_round, Deed.saves_round,
      Plan.saves_of_next hplan hnext, ← List.cons_append]
    refine ⟨?_, List.pairwise_append.2 ⟨hgrows, List.pairwise_singleton .., ?_⟩, fun n hn => ?_⟩
    · rw [List.length_append, List.length_singleton]
      omega
    · intro n hn m hm
      rw [List.mem_singleton.1 hm]
      exact Nat.lt_of_le_of_lt (hle n hn) hij
    · rcases List.mem_append.1 hn with hn | hn
      · exact (hle n hn).trans hij.le
      · exact (List.mem_singleton.1 hn).le

/-- Complete rounds that go on take every step from the start on. -/
theorem Trail.marches (h : Trail d p T i) (hgoes : Deed.GoesOn T) (hp : p ≤ d.size) :
    p ≤ i ∧ i ≤ d.size ∧ Deed.executions T = List.range' p (i - p) ∧
      Deed.saves T = List.range' (p + 1) (i - p) := by
  induction h with
  | start => exact ⟨le_rfl, hp, by simp [Deed.executions, Deed.index?],
      by simp [Deed.saves, Deed.saved?]⟩
  | @round T i j o now es turn context c _ hr hplan hnext ih =>
    obtain ⟨hpi, -, hexecuted, hsaved⟩ :=
      ih fun k o' ho' => hgoes k o' (List.mem_append_left _ ho')
    obtain rfl := Plan.next_of_goesOn hplan hnext (hgoes i o (by simp))
    have hone : i + 1 - p = i - p + 1 := by omega
    refine ⟨hpi.trans (Nat.le_succ i), hr.lt_size, ?_, ?_⟩
    · rw [Deed.executions_append, Deed.executions_round, hexecuted, hone, List.range'_1_concat,
        Nat.add_sub_cancel' hpi]
    · rw [Deed.saves_append, Deed.saves_round, Plan.saves_of_next hplan hnext, hsaved, hone,
        List.range'_1_concat]
      congr 2
      omega

/-- What neither executes nor saves changes nothing about that. -/
theorem Deed.IsStride.concat (h : Deed.IsStride d i r) {y : Deed} (hindex : y.index? = none)
    (hsaved : y.saved? = none) : Deed.IsStride d i (r ++ [y]) := by
  have hexecutions : Deed.executions (r ++ [y]) = Deed.executions r := by
    simp [Deed.executions, List.filterMap_append, hindex]
  have hsaves : Deed.saves (r ++ [y]) = Deed.saves r := by
    simp [Deed.saves, List.filterMap_append, hsaved]
  refine ⟨hexecutions ▸ h.executions, hsaves ▸ h.saves.imp_right ?_⟩
  rintro ⟨n, hn, hlt | ⟨heq, message, hmessage⟩⟩
  · exact ⟨n, hn, .inl hlt⟩
  · exact ⟨n, hn, .inr ⟨heq, message, List.mem_append_left _ hmessage⟩⟩

/-- **A round is a stride**, if jumps go forward. -/
theorem Round.isStride (h : Round d i r c φ q) (hforward : ∀ y ∈ r, y.IsForward d) :
    Deed.IsStride d i r := by
  induction h with
  | within hi => exact ⟨.inr ⟨rfl, hi⟩, .inl rfl⟩
  | @acting c o now done es turn context hr hplan =>
    refine ⟨.inr ⟨?_, hr.lt_size⟩, ?_⟩
    · exact congrArg (List.length ∘ (i :: ·)) (Deed.executions_map_deed c done)
    · have hjump := hforward (.returned i o) (by simp)
      refine (Plan.saves_cases hplan hjump c).imp_right ?_
      rintro ⟨n, hn, hlt | ⟨heq, message, rfl⟩⟩
      · exact ⟨n, hn, .inl hlt⟩
      · exact ⟨n, hn, .inr ⟨heq, message, by simp⟩⟩
  | @ending c done es turn hi hplan =>
    refine ⟨.inl (Deed.executions_map_deed c done), .inl (Plan.saves_of_not_mem ?_ c)⟩
    exact fun n hn => Plan.save_not_mem_atEnd hplan n (List.mem_append_left _ hn)
  | aborted hi => exact ⟨.inr ⟨rfl, hi⟩, .inl rfl⟩
  | misjumped hr hplan => exact ⟨.inr ⟨rfl, hr.lt_size⟩, .inl rfl⟩
  | unsaved _ ih => exact (ih fun y hy => hforward y (List.mem_append_left _ hy)).concat rfl rfl
  | refused _ ih => exact (ih fun y hy => hforward y (List.mem_append_left _ hy)).concat rfl rfl
  | unscheduled _ ih =>
    exact (ih fun y hy => hforward y (List.mem_append_left _ hy)).concat rfl rfl
  | _ => exact ⟨.inl rfl, .inl rfl⟩

/-! ## What a chain has done -/

/-- **A chain whose jumps go forward executes at most the steps from its start on.** -/
theorem Recalls.isBounded (h : Recalls d p T c φ q) (hforward : ∀ y ∈ T, y.IsForward d) :
    Deed.IsBounded d p T := by
  obtain ⟨T₀, i, r, rfl, htrail, hround⟩ := h
  obtain ⟨hlength, hgrows, hle⟩ :=
    htrail.strides fun y hy => hforward y (List.mem_append_left _ hy)
  obtain ⟨hexecutions, hsaves⟩ :=
    hround.isStride fun y hy => hforward y (List.mem_append_right _ hy)
  constructor
  · rw [Deed.executions_append, List.length_append]
    rcases hexecutions with hnone | ⟨hone, hi⟩
    · rw [hnone, List.length_nil]
      omega
    · omega
  · rw [Deed.saves_append]
    rcases hsaves with hnone | ⟨n, hn, hlt | ⟨rfl, message, hmessage⟩⟩
    · exact ⟨Deed.saves T₀, none, by rw [hnone]; rfl, hgrows, nofun⟩
    · refine ⟨Deed.saves T₀ ++ [n], none, by rw [hn]; simp, ?_, nofun⟩
      rw [← List.cons_append]
      refine List.pairwise_append.2 ⟨hgrows, List.pairwise_singleton .., fun m hm k hk => ?_⟩
      rw [List.mem_singleton.1 hk]
      exact Nat.lt_of_le_of_lt (hle m hm) hlt
    · refine ⟨Deed.saves T₀, some n, by rw [hn]; rfl, hgrows, ?_⟩
      rintro _ ⟨⟩
      exact ⟨⟨message, List.mem_append_right _ hmessage⟩, hle⟩

/-- The end of a chain changes nothing about that. -/
theorem Deed.IsBounded.concat (h : Deed.IsBounded d p T) (hx : Ends φ x) :
    Deed.IsBounded d p (T ++ [x]) := by
  have hsame : Deed.executions (T ++ [x]) = Deed.executions T ∧
      Deed.saves (T ++ [x]) = Deed.saves T := by
    rw [Deed.executions_append, Deed.saves_append]
    cases hx <;> exact ⟨List.append_nil _, List.append_nil _⟩
  obtain ⟨ns, w, hsaves, hgrows, hw⟩ := h.saves
  refine ⟨hsame.1 ▸ h.executions, ns, w, hsame.2.trans hsaves, hgrows, fun i hi => ?_⟩
  obtain ⟨⟨message, hmessage⟩, hle⟩ := hw i hi
  exact ⟨⟨message, List.mem_append_left _ hmessage⟩, hle⟩

/-- A chain that comes to its end without a setback while all its steps go on has passed the last
one. -/
theorem Round.passed (h : Round d i r c φ q) (hx : Ends φ x) (hgoes : Deed.GoesOn r)
    (hsetback : ∀ y ∈ r ++ [x], y.isSetback = false) :
    d.size ≤ i ∧ Deed.executions r = [] ∧ Deed.saves r = [] := by
  have last : x.isSetback = false := hsetback x (List.mem_append_right _ List.mem_cons_self)
  have earlier : ∀ y ∈ r, y.isSetback = false := fun y hy => hsetback y (List.mem_append_left _ hy)
  -- Behind the last step, nothing is executed or saved.
  have ending : ∀ {c : Chain} {done es turn}, Plan.atEnd c.context = ⟨done ++ es, turn⟩ →
      Deed.executions (.passed c.context.output :: done.map (Effect.deed c)) = [] ∧
        Deed.saves (.passed c.context.output :: done.map (Effect.deed c)) = [] := by
    intro c done es turn hplan
    refine ⟨Deed.executions_map_deed c done, Plan.saves_of_not_mem (fun n hn => ?_) c⟩
    exact Plan.save_not_mem_atEnd hplan n (List.mem_append_left _ hn)
  cases hx with
  | stop =>
    cases h with
    | @acting _ o now done _ _ context hr hplan =>
      have ho := hgoes i o (by simp)
      rw [List.append_nil] at hplan
      obtain ⟨message, rfl, -⟩ | ⟨cause, rfl, -⟩ := Plan.stop_cases hplan
      · simp at ho
      · simp at ho
    | ending hi hplan => exact ⟨hi, ending hplan⟩
  | halt =>
    cases h with
    | withdrawn => cases last
    | aborted => cases last
    | @misjumped _ o now fault context hr hplan =>
      have ho := hgoes i o (by simp)
      obtain ⟨label, rfl, -⟩ := Plan.error_cases hplan
      simp at ho
    | unsaved => cases earlier _ (List.mem_append_right _ List.mem_cons_self)
    | unscheduled => cases earlier _ (List.mem_append_right _ List.mem_cons_self)
    | @refused r c p news es turn hround =>
      cases hround with
      | @acting _ o now done _ _ context hr hplan =>
        have ho := hgoes i o (by simp)
        obtain ⟨duration, due, rfl, rfl, -⟩ | ⟨message, rfl, -⟩ | ⟨cause, s, rfl, -⟩ :=
          Plan.publish_cases hplan
        · have hrefused := earlier (.refused (c.notice (.delayed (i + 1) due))) (by simp)
          cases hrefused
        · simp at ho
        · simp at ho
      | ending hi hplan =>
        obtain ⟨hexecutions, hsaves⟩ := ending hplan
        refine ⟨hi, ?_, ?_⟩
        · rw [Deed.executions_append, hexecutions]
          rfl
        · rw [Deed.saves_append, hsaves]
          rfl
  | panic => cases last
  | drop => cases last
  | lose => cases last

/-- **A chain without a setback whose steps all go on takes every step from its start on**, and the
position behind each is saved. -/
theorem Recalls.isComplete (h : Recalls d p T c φ q) (hx : Ends φ x) (hp : p ≤ d.size)
    (hgoes : Deed.GoesOn (T ++ [x])) (hsetback : ∀ y ∈ T ++ [x], y.isSetback = false) :
    Deed.IsComplete d p (T ++ [x]) := by
  obtain ⟨T₀, i, r, rfl, htrail, hround⟩ := h
  obtain ⟨hpi, hi, hexecuted, hsaved⟩ := htrail.marches
    (fun k o ho => hgoes k o (List.mem_append_left _ (List.mem_append_left _ ho))) hp
  obtain ⟨hsize, hnone, hnothing⟩ := hround.passed hx
    (fun k o ho => hgoes k o (List.mem_append_left _ (List.mem_append_right _ ho)))
    fun y hy => hsetback y (by
      rw [List.append_assoc]
      exact List.mem_append_right _ hy)
  obtain rfl : i = d.size := le_antisymm hi hsize
  have hlast : Deed.executions [x] = [] ∧ Deed.saves [x] = [] := by cases hx <;> exact ⟨rfl, rfl⟩
  constructor
  · rw [Deed.executions_append, Deed.executions_append, hexecuted, hnone, hlast.1,
      List.append_nil, List.append_nil]
  · rw [Deed.saves_append, Deed.saves_append, hsaved, hnothing, hlast.2,
      List.append_nil, List.append_nil]

end DurableFlow
