import DurableFlow.Proofs.Families.RecalledDeeds
import Mathlib.Data.Set.Card
import Mathlib.Logic.Hydra

/-!
# Ranks of definitions

Where no workflow starts itself, directly or through others, a definition has a rank: the number of
the registered workflows that it may start, directly or through others (`Registry.rank`). What a
frame has left to do is graded by the rank of its definition, then by the steps that are left, then
by how far the present step has got. Main statements: what a definition starts has a lower rank
(`Registry.rank_lt`), whatever a chain does lowers its grade (`Goes.descends`), and grades cannot be
lowered for ever, even if several lower ones take the place of one (`Grade.wellFounded_lessens`).
-/

namespace DurableFlow

/-! ## Workflows that start others -/

/-- A step of the definition may launch a nested run of a workflow of that name. -/
def Definition.Targets (d : Definition) (name : String) : Prop :=
  ∃ i context context' r q next,
    d.Within i context (.launch context' r q next) ∧ q.workflow = name

namespace Registry

variable {R : Registry} {d d' : Definition} {v w : String}

/-- The workflow of the first name may start the one of the other name. -/
def Starts (R : Registry) (v w : String) : Prop := ∃ d, R.find? v = some d ∧ d.Targets w

/-- No workflow starts itself, directly or through others. -/
def IsAcyclic (R : Registry) : Prop := ∀ w, ¬ Relation.TransGen R.Starts w w

/-- No workflow starts itself if each starts lower ones only. -/
theorem isAcyclic_of_lt (rank : String → Nat) (h : ∀ v w, R.Starts v w → rank w < rank v) :
    R.IsAcyclic := by
  have hlt : ∀ v w, Relation.TransGen R.Starts v w → rank w < rank v := by
    intro v w hstarts
    induction hstarts with
    | single hw => exact h _ _ hw
    | tail _ hw ih => exact (h _ _ hw).trans ih
  exact fun w hw => lt_irrefl _ (hlt w w hw)

/-- The names of the registered workflows that a definition may start, directly or through
others. -/
def reach (R : Registry) (d : Definition) : Set String :=
  {w | w ∈ R.definitions.keys ∧ ∃ v, d.Targets v ∧ Relation.ReflTransGen R.Starts v w}

/-- How many registered workflows a definition may start, directly or through others. -/
noncomputable def rank (R : Registry) (d : Definition) : Nat := (R.reach d).ncard

theorem mem_keys_of_find? (h : R.find? w = some d) : w ∈ R.definitions.keys := by
  by_contra hmem
  rw [find?, Table.get?, Table.find_eq_none hmem] at h
  cases h

theorem finite_reach (R : Registry) (d : Definition) : (R.reach d).Finite :=
  (List.finite_toSet R.definitions.keys).subset fun _ hw => hw.1

/-- **What a definition may start has a lower rank.** -/
theorem rank_lt (h : R.IsAcyclic) (hw : d.Targets w) (hd' : R.find? w = some d') :
    R.rank d' < R.rank d := by
  refine Set.ncard_lt_ncard ⟨?_, fun hsub => ?_⟩ (R.finite_reach d)
  · rintro u ⟨hu, v, hv, hvu⟩
    exact ⟨hu, w, hw, .head ⟨d', hd', hv⟩ hvu⟩
  · -- The workflow that is started is itself no longer within reach.
    obtain ⟨-, v, hv, hvw⟩ := hsub ⟨mem_keys_of_find? hd', w, hw, .refl⟩
    exact h w (.head' ⟨d', hd', hv⟩ hvw)

end Registry

/-! ## What is left of a step -/

/-- What a frame has left of its present step: nothing, a behaviour, or what comes of the end of a
nested run. -/
inductive Remainder
  | nothing
  | behaviour (b : Behaviour)
  | reply (next : Reply → Behaviour)

namespace Remainder

/-- The step has gone on by one thing. -/
inductive Less : Remainder → Remainder → Prop
  | next {b b' : Behaviour} (h : b.Next b') : Less (behaviour b') (behaviour b)
  | launch {c r q next} : Less (reply next) (behaviour (.launch c r q next))
  | reply {next} (r : Reply) : Less (behaviour (next r)) (reply next)

theorem acc_reply {next : Reply → Behaviour} (h : ∀ r, Acc Less (behaviour (next r))) :
    Acc Less (reply next) := by
  refine .intro _ fun y hy => ?_
  cases hy with
  | reply r => exact h r

theorem acc_behaviour (b : Behaviour) : Acc Less (behaviour b) := by
  induction b with
  | finish c o => exact .intro _ fun y hy => by cases hy with | next h => cases h
  | panic c p => exact .intro _ fun y hy => by cases hy with | next h => cases h
  | emit x b ih => exact .intro _ fun y hy => by cases hy with | next h => cases h; exact ih
  | cancel b ih => exact .intro _ fun y hy => by cases hy with | next h => cases h; exact ih
  | await c s b ih => exact .intro _ fun y hy => by cases hy with | next h => cases h; exact ih
  | locate r k ih =>
    exact .intro _ fun y hy => by cases hy with | next h => cases h with | locate => exact ih _
  | launch c r q k ih =>
    refine .intro _ fun y hy => ?_
    cases hy with
    | next h =>
      cases h
      exact ih _
    | launch => exact acc_reply ih

theorem wellFounded_less : WellFounded Less := by
  refine ⟨fun x => ?_⟩
  cases x with
  | nothing => exact .intro _ fun y hy => by cases hy
  | behaviour b => exact acc_behaviour b
  | reply next => exact acc_reply fun r => acc_behaviour _

end Remainder

/-! ## Grades -/

/-- A rank, a number of steps, how far a round is from its end, and what is left of a step. -/
abbrev Grade := Nat × Nat × Nat × Remainder

namespace Grade

/-- The order of grades: the first difference decides. -/
def Less : Grade → Grade → Prop :=
  Prod.Lex (· < ·) (Prod.Lex (· < ·) (Prod.Lex (· < ·) Remainder.Less))

/-- The grade of what has nothing left to do. -/
def bottom : Grade := (0, 0, 0, .nothing)

/-- Some grades come of others: again and again, lower ones have taken the place of one. -/
def Lessens : Multiset Grade → Multiset Grade → Prop := Relation.TransGen (Relation.CutExpand Less)

theorem wellFounded_less : WellFounded Less :=
  .prod_lex Nat.lt_wfRel.wf <| .prod_lex Nat.lt_wfRel.wf <|
    .prod_lex Nat.lt_wfRel.wf Remainder.wellFounded_less

/-- **Grades cannot be lowered for ever.** -/
theorem wellFounded_lessens : WellFounded Lessens := wellFounded_less.cutExpand.transGen

theorem less_of_rank {r r' : Nat} {g g' : Nat × Nat × Remainder} (h : r < r') :
    Less (r, g) (r', g') := .left _ _ h

theorem less_of_way {r w w' : Nat} {g g' : Nat × Remainder} (h : w < w') :
    Less (r, w, g) (r, w', g') := .right _ (.left _ _ h)

theorem less_of_height {r w n n' : Nat} {x x' : Remainder} (h : n < n') :
    Less (r, w, n, x) (r, w, n', x') := .right _ (.right _ (.left _ _ h))

theorem less_of_remainder {r w n : Nat} {x x' : Remainder} (h : x.Less x') :
    Less (r, w, n, x) (r, w, n, x') := .right _ (.right _ (.right _ h))

theorem less_of_descends {r w w' n n' : Nat} {x x' : Remainder} (h : w' < w ∨ w' = w ∧ n' < n) :
    Less (r, w', n', x') (r, w, n, x) := by
  obtain h | ⟨rfl, h⟩ := h
  · exact less_of_way h
  · exact less_of_height h

theorem bottom_less (r w n : Nat) (x : Remainder) : Less bottom (r, w, n + 1, x) := by
  rcases Nat.eq_zero_or_pos r with rfl | hr
  · rcases Nat.eq_zero_or_pos w with rfl | hw
    · exact less_of_height n.succ_pos
    · exact less_of_way hw
  · exact less_of_rank hr

variable {g g' : Grade} {L M N : Multiset Grade}

theorem Lessens.trans (h : Lessens L M) (h' : Lessens M N) : Lessens L N :=
  Relation.TransGen.trans h h'

/-- Lower grades take the place of one. -/
theorem lessens_replace (h : ∀ g' ∈ L, Less g' g) (M : Multiset Grade) :
    Lessens (L + M) (g ::ₘ M) := by
  rw [← Multiset.singleton_add]
  exact .single ((Relation.cutExpand_add_right M).2 (Relation.cutExpand_singleton h))

theorem lessens_cons (h : Less g' g) (M : Multiset Grade) : Lessens (g' ::ₘ M) (g ::ₘ M) := by
  rw [← Multiset.singleton_add]
  exact lessens_replace (by simpa using h) M

/-- A grade is left out. -/
theorem lessens_drop (g : Grade) (M : Multiset Grade) : Lessens M (g ::ₘ M) := by
  simpa using lessens_replace (L := 0) (g := g) (by simp) M

theorem Lessens.add_right (h : Lessens L M) (N : Multiset Grade) : Lessens (L + N) (M + N) := by
  induction h with
  | single h => exact .single ((Relation.cutExpand_add_right N).2 h)
  | tail _ h ih => exact ih.tail ((Relation.cutExpand_add_right N).2 h)

theorem Lessens.cons (h : Lessens L M) (g : Grade) : Lessens (g ::ₘ L) (g ::ₘ M) := by
  have hadd := h.add_right {g}
  rwa [Multiset.add_comm L, Multiset.add_comm M, Multiset.singleton_add,
    Multiset.singleton_add] at hadd

/-- Grades are left out altogether. -/
theorem lessens_zero (h : M ≠ 0) : Lessens 0 M := by
  induction M using Multiset.induction_on with
  | empty => exact absurd rfl h
  | cons g M ih =>
    by_cases hM : M = 0
    · rw [hM]
      exact lessens_drop g 0
    · exact (ih hM).trans (lessens_drop g M)

end Grade

/-! ## What a chain has left to do -/

namespace Phase

/-- How many steps are left at most: those from an index on, or those behind the turn of a plan. -/
def left (d : Definition) : Phase → Nat
  | entering i | within i | resting i => d.size - i
  | acting plan => plan.turn.next?.elim 0 (d.size - ·)
  | halting _ => 0

/-- How far a chain is from taking its turn. -/
def height : Phase → Nat
  | acting plan => plan.turn.next?.elim 1 (fun _ => 6) + plan.effects.length
  | resting _ => 5
  | entering _ => 4
  | within _ => 3
  | halting _ => 0

end Phase

/-- A jump goes to a later step. -/
def Deed.IsForward (d : Definition) : Deed → Prop
  | .returned i (.jump label) => ∀ j, d.labelIndex? label = some j → i < j
  | _ => True

instance (d : Definition) : DecidablePred (Deed.IsForward d)
  | .returned i (.jump label) =>
    decidable_of_iff (∀ j ∈ d.labelIndex? label, i < j) Iff.rfl
  | .returned _ .proceed | .returned _ (.delay _) | .returned _ (.wait _)
  | .returned _ (.failure _) | .started _ | .executed _ | .passed _ | .saved _ | .unsaved _
  | .published _ | .refused _ | .settled _ | .suspended _ | .unscheduled _ | .stopped _
  | .halted _ | .panicked | .dropped | .lost => isTrue trivial

/-- A step that has returned is followed by a later one, if its jumps go forward. -/
theorem Plan.lt_next {d : Definition} {c : Context} {i j : Nat} {now : Instant} {o : Outcome}
    {plan : Plan} (h : Plan.ofOutcome d c i now o = .ok plan)
    (hforward : (Deed.returned i o).IsForward d) (hnext : plan.turn.next? = some j) : i < j := by
  cases o with
  | proceed =>
    cases h
    cases hnext
    exact Nat.lt_succ_self i
  | delay duration =>
    cases h
    cases hnext
    exact Nat.lt_succ_self i
  | jump label =>
    simp only [ofOutcome] at h
    cases htarget : d.labelIndex? label with
    | some target =>
      rw [htarget] at h
      cases h
      cases hnext
      exact hforward _ htarget
    | none =>
      rw [htarget] at h
      cases h
  | wait message =>
    cases h
    cases hnext
  | failure cause =>
    cases h
    cases hnext

/-- **Whatever a chain does, less is left of it**, if its jumps go forward: fewer steps, or the
round is nearer to its end. -/
theorem Goes.descends {p p' : Nat} {c c' : Chain} {φ φ' : Phase} {ds : List Deed}
    (h : Goes p c φ ds p' c' φ') (hforward : ∀ d ∈ ds, d.IsForward c.definition) :
    φ'.left c.definition < φ.left c.definition ∨
      φ'.left c.definition = φ.left c.definition ∧ φ'.height < φ.height := by
  -- A chain that is halted has nothing left.
  have halted : ∀ {φ : Phase} {fault}, 0 < φ.height →
      (Phase.halting fault).left c.definition < φ.left c.definition ∨
        (Phase.halting fault).left c.definition = φ.left c.definition ∧
          (Phase.halting fault).height < φ.height := by
    intro φ fault hheight
    rcases Nat.eq_zero_or_pos (φ.left c.definition) with hzero | hpos
    · exact .inr ⟨hzero.symm, hheight⟩
    · exact .inl hpos
  have acting : ∀ plan : Plan, 0 < (Phase.acting plan).height := by
    intro plan
    refine Nat.lt_add_right _ ?_
    cases plan.turn.next? with
    | none => exact Nat.one_pos
    | some j => exact Nat.succ_pos 5
  cases h with
  | execute => exact .inr ⟨rfl, Nat.lt_succ_self 3⟩
  | pass hsize => exact .inr ⟨(Nat.sub_eq_zero_of_le hsize).symm, Nat.lt_succ_self 3⟩
  | withdraw => exact halted (Nat.succ_pos 3)
  | abort => exact halted (Nat.succ_pos 2)
  | @heed i o _ plan context hr hplan =>
    have hi : i < c.definition.size := hr.lt_size
    refine .inl ?_
    show plan.turn.next?.elim 0 (c.definition.size - ·) < c.definition.size - i
    cases hnext : plan.turn.next? with
    | none => exact Nat.sub_pos_of_lt hi
    | some j =>
      have hij := Plan.lt_next hplan (hforward _ List.mem_cons_self) hnext
      show c.definition.size - j < c.definition.size - i
      omega
  | misjump => exact halted (Nat.succ_pos 2)
  | save => exact .inr ⟨rfl, Nat.add_lt_add_left (Nat.lt_succ_self _) _⟩
  | unsave => exact halted (acting _)
  | publish => exact .inr ⟨rfl, Nat.add_lt_add_left (Nat.lt_succ_self _) _⟩
  | refuse => exact halted (acting _)
  | settle => exact .inr ⟨rfl, Nat.add_lt_add_left (Nat.lt_succ_self _) _⟩
  | arrive => exact .inr ⟨rfl, Nat.lt_add_of_pos_right Nat.two_pos⟩
  | suspend => exact .inr ⟨rfl, Nat.lt_succ_self 5⟩
  | unschedule => exact halted (acting _)
  | wake => exact .inr ⟨rfl, Nat.lt_succ_self 4⟩

/-! ## What frames have left to do -/

/-- What a stage has left of its step. -/
def Stage.remainder : Stage → Remainder
  | .inside _ b => .behaviour b
  | .calling _ next => .reply next
  | _ => .nothing

namespace Registry

/-- What a chain in a phase has left to do. -/
noncomputable def gradeOf (R : Registry) (c : Chain) (φ : Phase) (x : Remainder) : Grade :=
  (R.rank c.definition, φ.left c.definition, φ.height, x)

/-- What a frame has left to do. -/
noncomputable def grade (R : Registry) : Frame → Grade
  | .opening _ q _ =>
    match R.find? q.workflow with
    | some d => (R.rank d, d.size + 1, 0, .nothing)
    | none => .bottom
  | .driving _ c stage => R.gradeOf c stage.phase stage.remainder
  | .receiving _ _ | .listening _ => .bottom

/-- What some frames have left to do. -/
noncomputable def grades (R : Registry) (frames : List Frame) : Multiset Grade :=
  (frames.map R.grade : List Grade)

/-- What a chain that rests has left to do. -/
noncomputable def timerGrade (R : Registry) (x : Timer Continuation) : Grade :=
  R.gradeOf x.work.chain (.resting x.work.next) .nothing

variable {R : Registry}

@[simp] theorem grades_nil (R : Registry) : R.grades [] = 0 := rfl

@[simp] theorem grades_cons (R : Registry) (f : Frame) (fs : List Frame) :
    R.grades (f :: fs) = R.grade f ::ₘ R.grades fs := rfl

theorem grades_append (R : Registry) (fs gs : List Frame) :
    R.grades (fs ++ gs) = R.grades fs + R.grades gs := by
  simp [grades]

/-- The innermost of some frames has less left to do. -/
theorem lessens_top (R : Registry) {f f' : Frame} (h : (R.grade f').Less (R.grade f))
    (below : List Frame) : Grade.Lessens (R.grades (f' :: below)) (R.grades (f :: below)) :=
  Grade.lessens_cons h (R.grades below)

/-- What goes on once the call above it is over has less left to do than both. -/
theorem lessens_resumed (R : Registry) (g : Grade) (reply : Reply) (below : List Frame) :
    Grade.Lessens (R.grades (Frame.resumed reply below)) (g ::ₘ R.grades below) := by
  unfold Frame.resumed
  split
  · rename_i o c i next rest
    have hless : Grade.Less (R.grade (.driving o c (.inside i (next reply))))
        (R.grade (.driving o c (.calling i next))) :=
      Grade.less_of_remainder (.reply reply)
    rw [grades_cons, grades_cons]
    exact (Grade.lessens_cons hless _).trans (Grade.lessens_drop g _)
  · exact Grade.lessens_zero Multiset.cons_ne_zero

/-- What is left of a task whose chain has left it has nothing to do for the chain. -/
theorem lessens_departed (R : Registry) (o : Origin) (reply : Reply) (below : List Frame) :
    R.grades (Frame.departed o reply below) = Grade.bottom ::ₘ R.grades below ∨
      Grade.Lessens (R.grades (Frame.departed o reply below))
        (Grade.bottom ::ₘ R.grades below) := by
  unfold Frame.departed
  split
  · exact .inl rfl
  · exact .inr (R.lessens_resumed _ _ _)

end Registry

/-- What goes on as something else in the course of a chain has less left to do. -/
theorem Goes.less {R : Registry} {p p' : Nat} {c c' : Chain} {φ φ' : Phase} {ds : List Deed}
    (h : Goes p c φ ds p' c' φ') (hforward : ∀ d ∈ ds, d.IsForward c.definition)
    (x x' : Remainder) : (R.gradeOf c' φ' x').Less (R.gradeOf c φ x) := by
  rw [Registry.gradeOf, h.definition_eq]
  exact Grade.less_of_descends (h.descends hforward)

end DurableFlow
