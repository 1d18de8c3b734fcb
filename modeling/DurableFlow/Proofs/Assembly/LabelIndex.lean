import DurableFlow.Proofs.Steps.OutcomePlans
import Mathlib.Data.List.Basic

/-!
# The index of labels

A definition is made if its name is not blank and its labels are neither empty nor carried twice;
otherwise the first position that offends decides what is told. The index of the labels grows with
the steps that have been looked at: at any time it holds the labels of these, each under the only
position that carries it (`Definition.Indexes`).

Main statement: `Definition.make_indexes`.
-/

namespace DurableFlow

namespace Definition

/-- The step at a position carries the label. -/
def Carries (labels : List (Option String)) (i : Nat) (l : String) : Prop :=
  labels[i]? = some (some l)

/-- The label at a position is empty, or was carried before. -/
def Offends (labels : List (Option String)) (k : Nat) : Prop :=
  ∃ l, Carries labels k l ∧ (l = "" ∨ ∃ j < k, Carries labels j l)

/-- What is told of the position that offends first. -/
inductive Refuses (workflow : String) (labels : List (Option String)) (k : Nat) :
    WorkflowError → Prop
  | empty (h : Carries labels k "") : Refuses workflow labels k (.emptyLabel workflow)
  | duplicate {l first} (h : Carries labels k l) (hl : l ≠ "") (hfirst : first < k)
      (hcarries : Carries labels first l) (honly : ∀ j < k, Carries labels j l → j = first) :
      Refuses workflow labels k (.duplicateLabel workflow l first k)

/-- The table holds each label under the one position that carries it. -/
def Indexes (t : Table String Nat) (labels : List (Option String)) : Prop :=
  ∀ l i, t.get? l = some i ↔ Carries labels i l

/-! ## Positions and labels -/

section

variable {labels before : List (Option String)} {o : Option String} {i j k : Nat} {l : String}

theorem Carries.lt_length (h : Carries labels i l) : i < labels.length :=
  (List.getElem?_eq_some_iff.1 h).1

theorem carries_append_left (hi : i < before.length) :
    Carries (before ++ labels) i l ↔ Carries before i l := by
  rw [Carries, List.getElem?_append_left hi, Carries]

theorem carries_concat :
    Carries (before ++ [o]) i l ↔ Carries before i l ∨ i = before.length ∧ o = some l := by
  obtain hi | rfl | hi := Nat.lt_trichotomy i before.length
  · rw [carries_append_left hi]
    simp [Nat.ne_of_lt hi]
  · simp [Carries]
  · have hout : ¬ Carries before i l := fun h => by have := h.lt_length; omega
    have hout' : ¬ Carries (before ++ [o]) i l := fun h => by
      have := h.lt_length
      rw [List.length_append, List.length_singleton] at this
      omega
    simp [hout, hout', Nat.ne_of_gt hi]

/-- Whether a position offends depends on the steps up to it. -/
theorem offends_append_left (hk : k < before.length) :
    Offends (before ++ labels) k ↔ Offends before k := by
  refine exists_congr fun l => and_congr (carries_append_left hk) (or_congr_right ?_)
  exact exists_congr fun j => and_congr_right fun hj => carries_append_left (Nat.lt_trans hj hk)

theorem Offends.lt_length (h : Offends labels k) : k < labels.length := by
  obtain ⟨l, hl, -⟩ := h
  exact hl.lt_length

/-- Where nobody offends, a label is carried once. -/
theorem eq_of_carries (h : ∀ k, ¬ Offends labels k) (hi : Carries labels i l)
    (hj : Carries labels j l) : i = j := by
  obtain hij | hij | hij := Nat.lt_trichotomy i j
  · exact absurd ⟨l, hj, .inr ⟨i, hij, hi⟩⟩ (h j)
  · exact hij
  · exact absurd ⟨l, hi, .inr ⟨j, hij, hj⟩⟩ (h i)

theorem forall_not_offends_iff : (∀ k, ¬ Offends labels k) ↔
    (∀ i l, Carries labels i l → l ≠ "") ∧
      ∀ i j l, Carries labels i l → Carries labels j l → i = j := by
  constructor
  · intro h
    refine ⟨?_, fun i j l hi hj => eq_of_carries h hi hj⟩
    rintro i l hi rfl
    exact h i ⟨"", hi, .inl rfl⟩
  · rintro ⟨hne, hone⟩ k ⟨l, hk, rfl | ⟨j, hj, hcarries⟩⟩
    · exact hne k "" hk rfl
    · exact absurd (hone k j l hk hcarries) (Nat.ne_of_gt hj)

end

/-! ## The index as it grows -/

section

variable {t : Table String Nat} {before : List (Option String)}

theorem indexes_nil : Indexes .empty [] := by
  intro l i
  simp [Carries]

/-- A step without a label leaves the index as it is. -/
theorem Indexes.skip (h : Indexes t before) : Indexes t (before ++ [none]) := by
  intro l i
  rw [h l i, carries_concat]
  simp

/-- A label that is new is entered with its position. -/
theorem Indexes.put {label : String} (h : Indexes t before) (hnew : t.get? label = none) :
    Indexes (t.put label before.length) (before ++ [some label]) := by
  intro l i
  rw [Table.get?_put, carries_concat]
  by_cases hl : l = label
  · subst hl
    have hnone : ¬ Carries before i l := by
      intro hi
      rw [← h l i, hnew] at hi
      cases hi
    simp [hnone, eq_comm]
  · rw [if_neg hl, h l i]
    simp [Ne.symm hl]

/-- A prefix without an offence is kept as long as the next position does not offend. -/
theorem not_offends_concat {o : Option String} (h : ∀ k, ¬ Offends before k)
    (hnext : ¬ Offends (before ++ [o]) before.length) : ∀ k, ¬ Offends (before ++ [o]) k := by
  intro k hk
  have hlt := hk.lt_length
  rw [List.length_append, List.length_singleton] at hlt
  obtain hk' | rfl := Nat.lt_succ_iff_lt_or_eq.1 hlt
  · exact h k ((offends_append_left hk').1 hk)
  · exact hnext hk

/-- **The scan.** As long as nobody offends the index grows; the first offence ends it. -/
theorem index_cases (workflow : String) (labels : List (Option String))
    (hindex : Indexes t before) (hbefore : ∀ k, ¬ Offends before k) :
    (∃ t', index workflow t before.length labels = .ok t' ∧ Indexes t' (before ++ labels) ∧
        ∀ k, ¬ Offends (before ++ labels) k) ∨
      ∃ k e, index workflow t before.length labels = .error e ∧
        Offends (before ++ labels) k ∧ (∀ j < k, ¬ Offends (before ++ labels) j) ∧
        Refuses workflow (before ++ labels) k e := by
  induction labels generalizing t before with
  | nil =>
    rw [List.append_nil]
    exact .inl ⟨t, rfl, hindex, hbefore⟩
  | cons o rest ih =>
    -- Nobody offends before the position that is looked at.
    have hless : ∀ j < before.length, ¬ Offends (before ++ o :: rest) j :=
      fun j hj h => hbefore j ((offends_append_left hj).1 h)
    have hlength : (before ++ [o]).length = before.length + 1 := by simp
    cases o with
    | none =>
      have hnext : ¬ Offends (before ++ [none]) before.length := by
        rintro ⟨l, hl, -⟩
        simp [Carries] at hl
      have hstep := ih hindex.skip (not_offends_concat hbefore hnext)
      rw [hlength, List.append_assoc, List.singleton_append] at hstep
      simpa [index] using hstep
    | some label =>
      have hhere : Carries (before ++ some label :: rest) before.length label := by
        simp [Carries]
      by_cases hempty : label = ""
      · subst hempty
        refine .inr ⟨before.length, .emptyLabel workflow, by simp [index], ?_, hless, .empty hhere⟩
        exact ⟨"", hhere, .inl rfl⟩
      · cases hget : t.get? label with
        | some first =>
          have hfirst : Carries before first label := (hindex label first).1 hget
          have hall : ∀ {j}, j < before.length → (Carries (before ++ some label :: rest) j label ↔
              Carries before j label) := fun hj => carries_append_left hj
          have hlt := hfirst.lt_length
          refine .inr ⟨before.length, .duplicateLabel workflow label first before.length,
            by simp [index, hempty, hget], ?_, hless, ?_⟩
          · exact ⟨label, hhere, .inr ⟨first, hlt, (hall hlt).2 hfirst⟩⟩
          · exact .duplicate hhere hempty hlt ((hall hlt).2 hfirst)
              fun j hj hcarries => eq_of_carries hbefore ((hall hj).1 hcarries) hfirst
        | none =>
          have hnext : ¬ Offends (before ++ [some label]) before.length := by
            rintro ⟨l, hl, rfl | ⟨j, hj, hcarries⟩⟩
            · simp [Carries, hempty] at hl
            · obtain rfl : label = l := by simpa [Carries] using hl
              have hold := (hindex label j).2 ((carries_append_left hj).1 hcarries)
              rw [hget] at hold
              cases hold
          have hstep := ih (hindex.put hget) (not_offends_concat hbefore hnext)
          rw [hlength, List.append_assoc, List.singleton_append] at hstep
          simpa [index, hempty, hget] using hstep

end

/-- What is told of a position is determined. -/
theorem Refuses.unique {workflow : String} {labels : List (Option String)} {k : Nat}
    {e e' : WorkflowError} (h : Refuses workflow labels k e) (h' : Refuses workflow labels k e') :
    e = e' := by
  cases h with
  | empty h =>
    cases h' with
    | empty _ => rfl
    | duplicate h'' hl _ _ _ =>
      rw [Carries, h] at h''
      cases h''
      exact absurd rfl hl
  | duplicate h hl hfirst hcarries honly =>
    cases h' with
    | empty h'' =>
      rw [Carries, h''] at h
      cases h
      exact absurd rfl hl
    | duplicate h'' _ hfirst' hcarries' _ =>
      rw [Carries, h] at h''
      cases h''
      rw [honly _ hfirst' hcarries']

/-! ## Definitions that are made -/

section

variable {name : String} {steps : List Step} {D : Definition} {s : Step} {l : String} {i : Nat}

theorem carries_map : Carries (steps.map Step.label) i l ↔
    ∃ s, steps[i]? = some s ∧ s.label = some l := by
  simp [Carries]

/-- A label is looked up as the one position that carries it. -/
theorem labelIndex?_eq_some_iff (h : ∀ k, ¬ Offends (D.steps.map Step.label) k) :
    D.labelIndex? l = some i ↔ Carries (D.steps.map Step.label) i l := by
  rw [labelIndex?, List.findIdx?_eq_some_iff_getElem]
  constructor
  · rintro ⟨hi, hlabel, -⟩
    exact carries_map.2 ⟨_, List.getElem?_eq_getElem hi, beq_iff_eq.1 hlabel⟩
  · intro hcarries
    obtain ⟨s, hs, hlabel⟩ := carries_map.1 hcarries
    obtain ⟨hi, rfl⟩ := List.getElem?_eq_some_iff.1 hs
    refine ⟨hi, beq_iff_eq.2 hlabel, fun j hj hlabel' => ?_⟩
    have hcarries' : Carries (D.steps.map Step.label) j l :=
      carries_map.2 ⟨_, List.getElem?_eq_getElem (Nat.lt_trans hj hi), beq_iff_eq.1 hlabel'⟩
    exact absurd (eq_of_carries h hcarries' hcarries) (Nat.ne_of_lt hj)

theorem mem_labels_iff : (l, i) ∈ D.labels ↔ Carries (D.steps.map Step.label) i l := by
  simp only [labels, List.mem_filterMap, Prod.exists, carries_map, List.mk_mem_zipIdx_iff_getElem?]
  constructor
  · rintro ⟨s, j, hs, heq⟩
    obtain ⟨l', hl', hpair⟩ := Option.map_eq_some_iff.1 heq
    cases hpair
    exact ⟨s, hs, hl'⟩
  · rintro ⟨s, hs, hl⟩
    exact ⟨s, i, hs, by simp [hl]⟩

/-- The labels are listed in the order of their positions. -/
theorem pairwise_labels (D : Definition) : D.labels.Pairwise fun a b => a.2 < b.2 := by
  have hzip : D.steps.zipIdx.Pairwise fun a b => a.2 < b.2 := by
    rw [← List.pairwise_map (f := Prod.snd) (R := (· < ·)), List.zipIdx_map_snd]
    exact List.pairwise_lt_range'
  refine hzip.filterMap _ ?_
  rintro ⟨s, i⟩ ⟨s', j⟩ hij b hb b' hb'
  obtain ⟨l, -, rfl⟩ := Option.map_eq_some_iff.1 hb
  obtain ⟨l', -, rfl⟩ := Option.map_eq_some_iff.1 hb'
  exact hij

/-- What is known of a definition that has been made. -/
structure IsIndexed (D : Definition) (name : String) (steps : List Step) : Prop where
  name_eq : D.name = name
  steps_eq : D.steps = steps
  /-- Labels are looked up as in the index that has grown. -/
  grown : ∃ t, index name .empty 0 (steps.map Step.label) = .ok t ∧ ∀ l, t.get? l = D.labelIndex? l
  labelIndex : ∀ l i, D.labelIndex? l = some i ↔ i < D.size ∧ Carries (steps.map Step.label) i l
  labels : ∀ l i, (l, i) ∈ D.labels ↔ D.labelIndex? l = some i
  once : D.labels.Nodup
  /-- A jump gets to the one step that carries the label. -/
  jumps : ∀ c k now l plan, Plan.ofOutcome D c k now (.jump l) = .ok plan →
    ∃ i, plan = ⟨[.save i], .arrive i⟩ ∧ ∀ j, Carries (steps.map Step.label) j l ↔ j = i
  /-- A step under a label is looked up by that one, whatever it carried before. -/
  named : ∀ i s n l, steps[i]? = some (Step.named n s) → (D.labelIndex? l = some i ↔ l = n)
  /-- What stands below a branch is not looked up. -/
  branch : ∀ i c yes no l, steps[i]? = some (Step.branch c yes no) → D.labelIndex? l ≠ some i

theorem isIndexed {t : Table String Nat} (hok : index name .empty 0 (steps.map Step.label) = .ok t)
    (ht : Indexes t (steps.map Step.label)) (h : ∀ k, ¬ Offends (steps.map Step.label) k) :
    IsIndexed ⟨name, steps⟩ name steps := by
  let D : Definition := ⟨name, steps⟩
  have hindex : ∀ l i, D.labelIndex? l = some i ↔ Carries (steps.map Step.label) i l :=
    fun l i => labelIndex?_eq_some_iff (D := D) h
  refine ⟨rfl, rfl, ⟨t, hok, fun l => ?_⟩, fun l i => ?_, fun l i => ?_, ?_, ?_, ?_, ?_⟩
  · exact Option.ext fun i => (ht l i).trans (hindex l i).symm
  · rw [hindex l i]
    exact ⟨fun hc => ⟨by simpa [size] using hc.lt_length, hc⟩, And.right⟩
  · exact (mem_labels_iff (D := D)).trans (hindex l i).symm
  · exact (pairwise_labels D).imp fun hlt heq => Nat.ne_of_lt hlt (congrArg Prod.snd heq)
  · intro c k now l plan hplan
    obtain ⟨i, hi, rfl⟩ := Plan.jump_cases hplan
    have hcarries := (hindex l i).1 hi
    refine ⟨i, rfl, fun j => ⟨fun hj => eq_of_carries h hj hcarries, ?_⟩⟩
    rintro rfl
    exact hcarries
  · intro i s n l hs
    rw [hindex l i, carries_map]
    simp [hs, Step.named, eq_comm]
  · intro i c yes no l hs
    rw [Ne, hindex l i, carries_map]
    simp [hs, Step.branch]

end

end Definition

/-! ## Drafts -/

namespace Draft

/-- Appends a step, under a label if there is one. -/
def add (d : Draft) : Option String × Step → Draft
  | (some l, s) => d.label l s
  | (none, s) => d.step s

/-- The step that is appended. -/
def added : Option String × Step → Step
  | (some l, s) => s.named l
  | (none, s) => s

theorem foldl_add (d : Draft) (added : List (Option String × Step)) :
    added.foldl add d = { d with steps := d.steps ++ added.map Draft.added } := by
  induction added generalizing d with
  | nil => simp
  | cons a rest ih =>
    obtain ⟨_ | l, s⟩ := a <;> simp [ih, add, Draft.added, step, label]

end Draft

namespace Definition

/-- **The index of labels.** A definition is made, from a list of steps or step by step, just if its
name is not blank and its labels are neither empty nor carried twice. Then each label is looked up
as the one position that carries it. Otherwise the name is blank, or the first position whose label
is empty or was carried before decides. -/
theorem make_indexes (name : String) (steps : List Step) :
    ((∃ D, make name steps = .ok D) ↔ isBlank name = false ∧
      (∀ i l, Carries (steps.map Step.label) i l → l ≠ "") ∧
      ∀ i j l, Carries (steps.map Step.label) i l → Carries (steps.map Step.label) j l → i = j) ∧
    (∀ D, make name steps = .ok D → D.IsIndexed name steps) ∧
    (∀ e, make name steps = .error e ↔ isBlank name = true ∧ e = .emptyName ∨
      isBlank name = false ∧ ∃ k, Offends (steps.map Step.label) k ∧
        (∀ j < k, ¬ Offends (steps.map Step.label) j) ∧
        Refuses name (steps.map Step.label) k e) ∧
    ∀ added : List (Option String × Step), added.map Draft.added = steps →
      (added.foldl Draft.add { name }).build = make name steps := by
  have hdraft : ∀ added : List (Option String × Step), added.map Draft.added = steps →
      (added.foldl Draft.add { name }).build = make name steps := by
    rintro added rfl
    rw [Draft.foldl_add]
    rfl
  rw [← forall_not_offends_iff]
  cases hblank : isBlank name with
  | true =>
    have hmake : make name steps = .error .emptyName := by simp [make, hblank]
    rw [hmake]
    refine ⟨by simp, by simp, fun e => ?_, hmake ▸ hdraft⟩
    simp [eq_comm]
  | false =>
    obtain ⟨t, hok, ht, hclear⟩ | ⟨k, e, herror, hk, hleast, hrefuses⟩ :=
      index_cases name (steps.map Step.label) indexes_nil (fun k hk => absurd hk.lt_length (by simp))
    · rw [List.nil_append] at ht hclear
      have hmake : make name steps = .ok ⟨name, steps⟩ := by
        simp only [make, hblank]
        simp only [List.length_nil] at hok
        simp [hok]
      rw [hmake]
      refine ⟨by simp [hclear], ?_, fun e => ?_, hmake ▸ hdraft⟩
      · rintro D hD
        cases hD
        exact isIndexed hok ht hclear
      · simp [hclear]
    · rw [List.nil_append] at hk hleast hrefuses
      have hmake : make name steps = .error e := by
        simp only [make, hblank]
        simp only [List.length_nil] at herror
        simp [herror]
      rw [hmake]
      refine ⟨?_, by simp, fun e' => ?_, hmake ▸ hdraft⟩
      · simp only [reduceCtorEq, exists_false, true_and, false_iff]
        exact fun hclear => hclear k hk
      · constructor
        · rintro heq
          cases heq
          exact .inr ⟨rfl, k, hk, hleast, hrefuses⟩
        · rintro (⟨hno, -⟩ | ⟨-, k', hk', hleast', hrefuses'⟩)
          · cases hno
          · obtain rfl : k = k' := Nat.le_antisymm (Nat.not_lt.1 fun hlt => hleast k' hlt hk')
              (Nat.not_lt.1 fun hlt => hleast' k hlt hk)
            rw [hrefuses.unique hrefuses']

/-- The second `a` offends before the empty label does; the label below the branch does not. -/
example : make "w" [.named "a" (.jump "b"), .branch (fun _ => .ok true) (.named "" (.jump "a")),
    .named "a" (.named "b" (.jump "a")), .named "" (.jump "a")] =
      .error (.duplicateLabel "w" "a" 0 2) := rfl

end Definition

end DurableFlow
