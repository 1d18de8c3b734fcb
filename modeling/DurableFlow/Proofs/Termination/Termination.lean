import DurableFlow.Proofs.NestedRuns.PanicContainment
import DurableFlow.Proofs.Termination.WorkLeft
import DurableFlow.Proofs.NestedRuns.Ladders
import DurableFlow.Proofs.Termination.Readiness
import DurableFlow.Proofs.Positions.ForwardJumps

/-!
# Termination

An endless history takes a family of runs on in which no workflow starts itself, directly or through
others, and in which jumps go forward. Its steps come to their ends, its delays end one way or
another, and its tasks are taken on again and again for as long as they can move
(`Engine.Unfolds`). What the family has left to do cannot become less for ever; and once it does
not, none of its members is left, because each of them would wait for another one of the family.

Main statement: `Engine.Unfolds.terminates`.
-/

namespace DurableFlow

namespace Engine

/-- The first acts of an endless history. -/
def past (acts : Nat → Act) (n : Nat) : List Act := (List.range n).map acts

/-- The engine after the first acts of an endless history. -/
def amid (e : Engine) (acts : Nat → Act) (n : Nat) : Engine := e.after (past acts n)

/-- An endless history of a new engine, and a family of runs over a registry in it. -/
structure Unfolds (e : Engine) (R : Registry) (own : Nat → Bool) (acts : Nat → Act) : Prop where
  new : e.IsNew
  /-- No workflow starts itself, directly or through others. -/
  acyclic : R.IsAcyclic
  /-- What is drawn by a member of the family belongs to the family. -/
  hereditary : ∀ n, e.IsHereditary own (past acts n)
  /-- At some time the last run of the family has been started from outside. -/
  begun : ∃ b, ∀ n, b ≤ n → (acts n).opening?.isSome = true → own (e.amid acts n).next = false
  /-- The workflows that are asked for are looked up in the registry. -/
  served : ∀ n, ∀ t ∈ (e.amid acts n).tasks, own t.number = true → (e.amid acts n).IsServed R t
  /-- A jump that is taken goes to a later step. -/
  forward : ∀ n, ∀ d ∈ (e.amid acts n).deeds (acts n), own d.1.number = true →
    d.2.IsForward d.1.definition
  /-- A task is taken on again and again, for as long as it can move. -/
  fair : ∀ n k, own k = true → ∃ m, n ≤ m ∧ (acts m = .advance k ∨
    ∀ t ∈ (e.amid acts m).tasks, t.number = k → (e.amid acts m).canMove t = false)
  /-- A delay does not last for ever. -/
  fires : ∀ n, ∀ x ∈ (e.amid acts n).scheduler.timers.armed, own x.work.delay = true →
    ∃ m, n ≤ m ∧ x ∉ (e.amid acts m).scheduler.timers.armed
  /-- A step does not wait for a signal for ever. -/
  returns : ∀ n, ∀ t ∈ (e.amid acts n).tasks, own t.number = true →
    ∀ o c i context s b below,
      t.frames = .driving o c (.inside i (.await context s b)) :: below →
      ∃ m, n ≤ m ∧ ((e.amid acts m).isSignalled t.token s = true ∨
        ∀ u ∈ (e.amid acts m).tasks, u.number = t.number → u.frames ≠ t.frames)

variable {e : Engine} {R : Registry} {own : Nat → Bool} {acts : Nat → Act} {n N : Nat} {t u : Task}

theorem past_succ (acts : Nat → Act) (n : Nat) : past acts (n + 1) = past acts n ++ [acts n] := by
  simp [past, List.range_succ]

theorem amid_succ (e : Engine) (acts : Nat → Act) (n : Nat) :
    e.amid acts (n + 1) = (e.amid acts n).act (acts n) := by
  rw [amid, past_succ, after_concat]
  rfl

namespace Unfolds

section

variable (h : e.Unfolds R own acts)
include h

theorem sound (n : Nat) : (e.amid acts n).Sound .any := (h.new.sound .any).after_any _

theorem inherits (n : Nat) : (e.amid acts n).Inherits own (acts n) :=
  h.hereditary (n + 1) (past acts n) (acts n) [] (past_succ acts n)

/-- What is done for the family is done for chains of it. -/
theorem forward_of_concerns (hconcerns : (e.amid acts n).concerns own (acts n) = true) :
    ∀ d ∈ (e.amid acts n).deeds (acts n), d.2.IsForward d.1.definition := by
  intro d hd
  obtain ⟨m, hm, hdoes, hsame⟩ := (h.sound n).exists_does hd own
  obtain ⟨i, hstarted⟩ | ⟨s, hs, hchain⟩ := hdoes.mem_strands
  · rw [hstarted]
    trivial
  · have hown := h.new.own_of_strands (h.hereditary n) m hm (hsame.symm.trans hconcerns) s hs
    exact h.forward n d hd (hchain ▸ hown)

theorem governs (hquiet : (acts n).opening?.isSome = true → own (e.amid acts n).next = false) :
    (e.amid acts n).Governs own R (acts n) ((e.amid acts n).deeds (acts n)) where
  acyclic := h.acyclic
  inherits := h.inherits n
  quiet := hquiet
  served := h.served n
  forward := h.forward_of_concerns

/-- **At some time the family comes to rest.** -/
theorem exists_idles : ∃ N, ∀ n, N ≤ n →
    R.Idles own (acts n) (e.amid acts n).members (e.amid acts (n + 1)).members := by
  obtain ⟨b, hb⟩ := h.begun
  have hstep : ∀ n, b ≤ n →
      R.Idles own (acts n) (e.amid acts n).members (e.amid acts (n + 1)).members ∨
        Grade.Lessens (R.efforts own (e.amid acts (n + 1)).members)
          (R.efforts own (e.amid acts n).members) := by
    intro n hn
    rw [amid_succ]
    exact (h.sound n).lessens_act ((h.new.sound .any).isMarked_after h.new.isMarked _)
      (h.governs (hb n hn))
  -- There is a time at which there is nothing less to come.
  obtain ⟨_, ⟨N, hN, rfl⟩, hmin⟩ := Grade.wellFounded_lessens.has_min
    {g | ∃ n, b ≤ n ∧ g = R.efforts own (e.amid acts n).members} ⟨_, b, le_rfl, rfl⟩
  have hconstant : ∀ n, N ≤ n → R.efforts own (e.amid acts n).members =
      R.efforts own (e.amid acts N).members := by
    intro n hn
    induction n, hn using Nat.le_induction with
    | base => rfl
    | succ n hn ih =>
      obtain hidles | hless := hstep n (hN.trans hn)
      · exact hidles.efforts.trans ih
      · exact absurd (ih ▸ hless) (hmin _ ⟨n + 1, (hN.trans hn).trans (Nat.le_succ n), rfl⟩)
  refine ⟨N, fun n hn => (hstep n (hN.trans hn)).resolve_right fun hless => ?_⟩
  exact hmin _ ⟨n + 1, (hN.trans hn).trans (Nat.le_succ n), rfl⟩ (hconstant n hn ▸ hless)

/-- Whoever is ready remains so. -/
theorem isReady_succ (ht : t ∈ (e.amid acts n).tasks) (hready : (e.amid acts n).isReady t = true)
    (hframes : u.frames = t.frames) (htoken : u.token = t.token) :
    (e.amid acts (n + 1)).isReady u = true := by
  rw [amid_succ]
  exact (h.sound n).isReady_act (acts n) ((h.sound n).tasks t ht)
    (h.new.isDated _ _ (task_mem_members ht)).lt_next hframes htoken hready

end

/-! ## A family at rest -/

section

variable (h : e.Unfolds R own acts)
  (hidles : ∀ n, N ≤ n →
    R.Idles own (acts n) (e.amid acts n).members (e.amid acts (n + 1)).members)
include h hidles

/-- A task stays as it is, unless it is looked at. -/
theorem stays_succ (hn : N ≤ n) (ht : t ∈ (e.amid acts n).tasks) (hown : own t.number = true) :
    (acts n = .advance t.number → t.isIdle = true) ∧
      ∃ u ∈ (e.amid acts (n + 1)).tasks, u.number = t.number ∧ u.token = t.token ∧
        u.frames = t.frames ∧ (acts n ≠ .advance t.number → u = t) := by
  have hne : R.effort (.task t) ≠ 0 := by
    cases hframes : t.frames with
    | nil => exact absurd hframes (h.new.frames_ne_nil _ t ht)
    | cons f below =>
      rw [Registry.effort, hframes, Registry.grades_cons]
      exact Multiset.cons_ne_zero
  obtain ⟨m, hm, hstays⟩ := (hidles n hn).stays _ (task_mem_members ht) hown hne
  cases hstays with
  | same hidle =>
    exact ⟨hidle t rfl, t, mem_tasks_of_members hm, rfl, rfl, rfl, fun _ => rfl⟩
  | @looked _ u ha hidle hnumber htoken hframes =>
    exact ⟨fun _ => hidle, u, mem_tasks_of_members hm, hnumber, htoken, hframes,
      fun hne => absurd ha hne⟩

/-- A task stays where it is for ever. -/
theorem stays (hn : N ≤ n) (ht : t ∈ (e.amid acts n).tasks) (hown : own t.number = true) {m : Nat}
    (hm : n ≤ m) : ∃ u ∈ (e.amid acts m).tasks, u.number = t.number ∧ u.token = t.token ∧
      u.frames = t.frames := by
  induction m, hm using Nat.le_induction with
  | base => exact ⟨t, ht, rfl, rfl, rfl⟩
  | succ m hm ih =>
    obtain ⟨u, hu, hnumber, htoken, hframes⟩ := ih
    obtain ⟨-, u', hu', hnumber', htoken', hframes', -⟩ :=
      stays_succ h hidles (hn.trans hm) hu (hnumber ▸ hown)
    exact ⟨u', hu', hnumber'.trans hnumber, htoken'.trans htoken, hframes'.trans hframes⟩

/-- A delay would last for ever. -/
theorem no_timers : ∀ x ∈ (e.amid acts N).scheduler.timers.armed, own x.work.delay = false := by
  intro x hx
  cases hown : own x.work.delay with
  | false => rfl
  | true =>
    have hstays : ∀ m, N ≤ m → x ∈ (e.amid acts m).scheduler.timers.armed := by
      intro m hm
      induction m, hm using Nat.le_induction with
      | base => exact hx
      | succ m hm ih =>
        have hne : R.effort (.timer x) ≠ 0 := Multiset.singleton_ne_zero _
        obtain ⟨m', hm', hstays⟩ := (hidles m hm).stays _ (timer_mem_members ih) hown hne
        cases hstays with
        | same => exact mem_armed_of_members hm'
    obtain ⟨m, hm, hgone⟩ := h.fires N x hx hown
    exact absurd (hstays m hm) hgone

/-- A task waits. -/
theorem waits (hn : N ≤ n) (ht : t ∈ (e.amid acts n).tasks) (hown : own t.number = true) :
    t.isWaiting = true := by
  obtain ⟨m, hm, hfair⟩ := h.fair n t.number hown
  obtain ⟨u, hu, hnumber, -, hframes⟩ := stays h hidles hn ht hown hm
  rw [Task.isWaiting, ← hframes, ← Task.isWaiting]
  by_contra hwaiting
  have hp : u.parked = false := by
    by_contra hp
    exact hwaiting (h.new.isWaiting _ hu (by simpa using hp))
  rcases hfair with ha | hstuck
  · -- A task that is looked at and does not wait goes on.
    obtain ⟨hidle, -⟩ := stays_succ h hidles (hn.trans hm) hu (hnumber ▸ hown)
    have hidle := hidle (hnumber ▸ ha)
    cases hf : u.frames with
    | nil => exact absurd hf (h.new.frames_ne_nil _ u hu)
    | cons f below =>
      have hcalling := h.new.not_calling _ hu f (by rw [hf]; rfl)
      simp only [Task.isWaiting, hf, List.head?_cons, Option.any_some] at hwaiting
      simp [Task.isIdle, hp, hf, hcalling, hwaiting] at hidle
  · have hcan := hstuck u hu hnumber
    simp [canMove, hp] at hcan

/-- A task that is ready is parked, or it would go on. -/
theorem not_ready_of_unparked (hn : N ≤ n) (ht : t ∈ (e.amid acts n).tasks)
    (hown : own t.number = true) (hp : t.parked = false) :
    (e.amid acts n).isReady t ≠ true := by
  intro hready
  have hwaiting := waits h hidles hn ht hown
  have hidle : ∀ m, n ≤ m → t ∈ (e.amid acts m).tasks → (e.amid acts m).isReady t = true →
      acts m ≠ .advance t.number := by
    intro m hm ht hready ha
    obtain ⟨-, u, hu, hnumber, -, hframes, -⟩ := stays_succ h hidles (hn.trans hm) ht hown
    rw [amid_succ, ha] at hu
    exact ((h.sound m).goes_on ht hwaiting hready hu hnumber).1 hp hframes
  have hstays : ∀ m, n ≤ m → t ∈ (e.amid acts m).tasks ∧ (e.amid acts m).isReady t = true := by
    intro m hm
    induction m, hm using Nat.le_induction with
    | base => exact ⟨ht, hready⟩
    | succ m hm ih =>
      obtain ⟨-, u, hu, -, -, -, hsame⟩ := stays_succ h hidles (hn.trans hm) ih.1 hown
      obtain rfl := hsame (hidle m hm ih.1 ih.2)
      exact ⟨hu, h.isReady_succ ih.1 ih.2 rfl rfl⟩
  obtain ⟨m, hm, ha | hstuck⟩ := h.fair n t.number hown
  · exact hidle m hm (hstays m hm).1 (hstays m hm).2 ha
  · have hcan := hstuck t (hstays m hm).1 rfl
    simp [canMove, hp] at hcan

/-- **No task is ready**: it would be taken on, unparked, and would go on. -/
theorem not_ready (hn : N ≤ n) (ht : t ∈ (e.amid acts n).tasks) (hown : own t.number = true) :
    (e.amid acts n).isReady t ≠ true := by
  intro hready
  have hstays : ∀ m, n ≤ m → ∃ u ∈ (e.amid acts m).tasks, u.number = t.number ∧
      u.token = t.token ∧ u.frames = t.frames ∧ (e.amid acts m).isReady u = true := by
    intro m hm
    induction m, hm using Nat.le_induction with
    | base => exact ⟨t, ht, rfl, rfl, rfl, hready⟩
    | succ m hm ih =>
      obtain ⟨u, hu, hnumber, htoken, hframes, hready⟩ := ih
      obtain ⟨-, v, hv, hnumber', htoken', hframes', -⟩ :=
        stays_succ h hidles (hn.trans hm) hu (hnumber ▸ hown)
      exact ⟨v, hv, hnumber'.trans hnumber, htoken'.trans htoken, hframes'.trans hframes,
        h.isReady_succ hu hready hframes' htoken'⟩
  obtain ⟨m, hm, hfair⟩ := h.fair n t.number hown
  obtain ⟨u, hu, hnumber, -, -, hready'⟩ := hstays m hm
  have huown : own u.number = true := hnumber ▸ hown
  rcases hfair with ha | hstuck
  · obtain ⟨-, v, hv, hnumber', htoken', hframes', -⟩ :=
      stays_succ h hidles (hn.trans hm) hu huown
    have hv' : v ∈ ((e.amid acts m).act (.advance u.number)).tasks := by
      rw [hnumber, ← ha, ← amid_succ]
      exact hv
    have hwaiting := waits h hidles (hn.trans hm) hu huown
    obtain ⟨hgoes, hunparks⟩ := (h.sound m).goes_on hu hwaiting hready' hv' hnumber'
    cases hp : u.parked with
    | false => exact hgoes hp hframes'
    | true =>
      exact not_ready_of_unparked h hidles ((hn.trans hm).trans (Nat.le_succ m)) hv
        (hnumber' ▸ huown) (hunparks hp)
        (h.isReady_succ hu hready' hframes' htoken')
  · have hcan := hstuck u hu hnumber
    simp [canMove, hready'] at hcan

/-- **Whoever is left waits for a completion that is owed.** -/
theorem waitsFor : ∀ m ∈ (e.amid acts N).members, own m.number = true →
    ∃ k, (e.amid acts N).WaitsFor m k := by
  intro m hm hown
  cases m with
  | task t =>
    have ht := mem_tasks_of_members hm
    have hwaiting := waits h hidles le_rfl ht hown
    obtain ⟨r, k, below, hf⟩ | ⟨o, c, i, context, s, rest, below, hf⟩ :=
      ((h.sound N).tasks t ht).waits_cases hwaiting
    · refine ⟨k, t, r, below, rfl, hf, ?_⟩
      by_contra howed
      exact not_ready h hidles le_rfl ht hown (by simp [isReady, hf, howed])
    · -- The signal comes, and then the task is ready.
      obtain ⟨m, hm, hcomes⟩ := h.returns N t ht hown o c i context s rest below hf
      obtain ⟨u, hu, hnumber, htoken, hframes⟩ := stays h hidles le_rfl ht hown hm
      have hready := not_ready h hidles hm hu (hnumber ▸ hown)
      rcases hcomes with hsignalled | hgone
      · simp [isReady, hframes, hf, htoken, hsignalled] at hready
      · exact absurd hframes (hgone u hu hnumber)
  | timer x =>
    have hnone := no_timers h hidles x (mem_armed_of_members hm)
    cases hown.symm.trans hnone

/-- **No member is left.** -/
theorem gone : ∀ m ∈ (e.amid acts N).members, own m.number = false :=
  h.new.not_circular (h.hereditary N) (waitsFor h hidles)

end

end Unfolds

/-! ## What becomes of the family -/

/-- The chain of a number that started at a position is over: it has come to one of its ends. -/
def IsOver (e : Engine) (as : List Act) (d : Definition) (p k : Nat) : Prop :=
  ∃ T x c φ q, e.life k as = T ++ [x] ∧ Recalls d p T c φ q ∧ Ends φ x

/-- The steps of the chain of a number go on, at once or after a delay, and nothing befalls it. -/
def GoesWell (e : Engine) (acts : Nat → Act) (k : Nat) : Prop :=
  ∀ n, Deed.GoesOn (e.life k (past acts n)) ∧
    ∀ d ∈ e.life k (past acts n), d.isSetback = false

/-- Since a chain started, no other one has saved a position for its instance, nor has it saved one
for another instance. -/
def SavesAlone (e : Engine) (as : List Act) (c : Chain) (p : Nat) : Prop :=
  ∀ before rest, e.chronicle as = before ++ (c, .started p) :: rest →
    ∀ x ∈ rest, ∀ next, x.2 = .saved next → (x.1.number = c.number ↔ x.1.inst = c.inst)

/-- What becomes of a family of runs in an endless history. -/
structure Terminates (e : Engine) (own : Nat → Bool) (acts : Nat → Act) : Prop where
  /-- At some time none of its tasks and delays is left, and all its chains are over. -/
  stops : ∃ N, ∀ n, N ≤ n → (∀ m ∈ (e.amid acts n).members, own m.number = false) ∧
    ∀ c p, (c, .started p) ∈ e.chronicle (past acts n) → own c.number = true →
      e.IsOver (past acts n) c.definition p c.number
  /-- No chain executes more than the steps from its start on, and the positions that it saves grow,
  up to that of a step that waits. -/
  bounded : ∀ n c p, (c, .started p) ∈ e.chronicle (past acts n) → own c.number = true →
    Deed.IsBounded c.definition p (e.life c.number (past acts n))
  /-- A chain that goes well executes every step from its start on once. -/
  complete : ∀ b c p, (c, .started p) ∈ e.chronicle (past acts b) → own c.number = true →
    p ≤ c.definition.size → e.GoesWell acts c.number →
      ∃ N, ∀ n, N ≤ n → Deed.IsComplete c.definition p (e.life c.number (past acts n))
  /-- If it has not started behind the last step, the position is in the end the one behind that. -/
  position : ∀ b c p, (c, .started p) ∈ e.chronicle (past acts b) → own c.number = true →
    p < c.definition.size → e.GoesWell acts c.number →
      (∀ n, e.SavesAlone (past acts n) c p) →
        ∃ N, ∀ n, N ≤ n → (e.amid acts n).store.position? c.inst = some c.definition.size

/-- A chain that has gone well executes every step from its start on. -/
theorem IsOver.isComplete {d : Definition} {p k : Nat} (hover : e.IsOver (past acts n) d p k)
    (hp : p ≤ d.size) (hwell : e.GoesWell acts k) :
    Deed.IsComplete d p (e.life k (past acts n)) := by
  obtain ⟨hgoes, hsetback⟩ := hwell n
  obtain ⟨T, x, c, φ, q, hT, hrecalls, hends⟩ := hover
  rw [hT] at hgoes hsetback ⊢
  exact hrecalls.isComplete hends hp hgoes hsetback

theorem mem_chronicle_past {x : Chain × Deed} (hx : x ∈ e.chronicle (past acts n)) :
    ∃ i, x ∈ (e.amid acts i).deeds (acts i) := by
  induction n with
  | zero => cases hx
  | succ n ih =>
    rw [past_succ, chronicle_concat] at hx
    rcases List.mem_append.1 hx with hx | hx
    · exact ih hx
    · exact ⟨n, hx⟩

/-- What has been done remains in the chronicle. -/
theorem mem_chronicle_of_le {x : Chain × Deed} (hx : x ∈ e.chronicle (past acts n)) {m : Nat}
    (hm : n ≤ m) : x ∈ e.chronicle (past acts m) := by
  induction m, hm using Nat.le_induction with
  | base => exact hx
  | succ m hm ih =>
    rw [past_succ, chronicle_concat]
    exact List.mem_append_left _ ih

namespace Unfolds

variable {c : Chain} {p : Nat} (h : e.Unfolds R own acts)
include h

/-- All jumps of a chain of the family go forward. -/
theorem forward_life (hstarted : (c, .started p) ∈ e.chronicle (past acts n))
    (hown : own c.number = true) :
    ∀ d ∈ e.life c.number (past acts n), d.IsForward c.definition := by
  intro d hd
  obtain ⟨c', hmem, hnumber⟩ := mem_life.1 hd
  obtain ⟨i, hi⟩ := mem_chronicle_past hmem
  have hdefinition : c'.definition = c.definition := (h.new.lived hstarted).2 _ hmem hnumber
  exact hdefinition ▸ h.forward i _ hi (hnumber.symm ▸ hown)

theorem isBounded (hstarted : (c, .started p) ∈ e.chronicle (past acts n))
    (hown : own c.number = true) :
    Deed.IsBounded c.definition p (e.life c.number (past acts n)) := by
  have hforward := h.forward_life hstarted hown
  obtain ⟨hlived, -⟩ := h.new.lived hstarted
  cases hlived with
  | going _ _ hrecalls => exact hrecalls.isBounded hforward
  | closed _ hT hrecalls hends =>
    rw [hT] at hforward ⊢
    exact (hrecalls.isBounded fun d hd => hforward d (List.mem_append_left _ hd)).concat hends

/-- Once no member of the family is left, its chains are over. -/
theorem isOver (hgone : ∀ m ∈ (e.amid acts n).members, own m.number = false)
    (hstarted : (c, .started p) ∈ e.chronicle (past acts n)) (hown : own c.number = true) :
    e.IsOver (past acts n) c.definition p c.number := by
  obtain ⟨hlived, -⟩ := h.new.lived hstarted
  cases hlived with
  | going hc hk => exact absurd hk (h.new.number_ne_of_gone (h.hereditary n) hgone hown _ hc)
  | closed _ hT hrecalls hends => exact ⟨_, _, _, _, _, hT, hrecalls, hends⟩

/-- The position is the one that the chain saved last, if it saves alone. -/
theorem position_eq (hstarted : (c, .started p) ∈ e.chronicle (past acts n))
    (halone : e.SavesAlone (past acts n) c p) :
    ∃ q, (e.amid acts n).position c.inst =
      (Deed.saves (e.life c.number (past acts n))).getLastD q := by
  obtain ⟨before, rest, hsplit⟩ := List.append_of_mem hstarted
  have hsame : Deed.saves (Deed.of (fun c' => c'.inst == c.inst) rest) =
      Deed.saves (Deed.of (fun c' => c'.number == c.number) rest) :=
    Deed.saves_of_congr fun x hx next hsaved =>
      Bool.eq_iff_iff.2 (by simpa using (halone before rest hsplit x hx next hsaved).symm)
  refine ⟨Deed.position (e.position c.inst) (Deed.of (fun c' => c'.inst == c.inst) before), ?_⟩
  have hstory : e.story c.inst (past acts n) = Deed.of (fun c' => c'.inst == c.inst) before ++
      .started p :: Deed.of (fun c' => c'.inst == c.inst) rest := by
    rw [story, hsplit, Deed.of_append]
    simp [Deed.of]
  rw [amid, (h.new.sound .any).position_after fun a _ => a.meets_any, hstory,
    Deed.position_append, h.new.life_of_split hsplit, Deed.position_eq_getLastD]
  exact congrArg (List.getLastD · _) hsame

/-- **A family in which no workflow starts itself and jumps go forward comes to an end**, and each
chain of it gets as far as it can. -/
theorem terminates : e.Terminates own acts := by
  obtain ⟨N, hidles⟩ := h.exists_idles
  have hgone : ∀ n, N ≤ n → ∀ m ∈ (e.amid acts n).members, own m.number = false :=
    fun n hn => h.gone fun m hm => hidles m (hn.trans hm)
  have hcomplete : ∀ b c p, (c, .started p) ∈ e.chronicle (past acts b) → own c.number = true →
      p ≤ c.definition.size → e.GoesWell acts c.number → ∀ n, max N b ≤ n →
        Deed.IsComplete c.definition p (e.life c.number (past acts n)) := by
    intro b c p hstarted hown hp hwell n hn
    have hstarted := mem_chronicle_of_le hstarted (le_of_max_le_right hn)
    exact (h.isOver (hgone n (le_of_max_le_left hn)) hstarted hown).isComplete hp hwell
  refine ⟨⟨N, fun n hn => ⟨hgone n hn, fun c p => h.isOver (hgone n hn)⟩⟩,
    fun n c p => h.isBounded, fun b c p hstarted hown hp hwell =>
      ⟨max N b, hcomplete b c p hstarted hown hp hwell⟩,
    fun b c p hstarted hown hp hwell halone => ⟨max N b, fun n hn => ?_⟩⟩
  obtain ⟨q, hposition⟩ := h.position_eq
    (mem_chronicle_of_le hstarted (le_of_max_le_right hn)) (halone n)
  have hsaves := (hcomplete b c p hstarted hown hp.le hwell n hn).saves
  have hsize : c.definition.size - p = c.definition.size - p - 1 + 1 := by omega
  rw [hsaves, hsize, List.range'_1_concat, List.getLastD_concat] at hposition
  have hlast : p + 1 + (c.definition.size - p - 1) = c.definition.size := by omega
  rw [hlast, position] at hposition
  -- The position is not that of an instance that has none.
  cases hstored : (e.amid acts n).store.position? c.inst with
  | none =>
    rw [hstored] at hposition
    have hzero : 0 = c.definition.size := hposition
    omega
  | some q =>
    rw [hstored] at hposition
    exact congrArg some hposition

end Unfolds

/-! ## Histories that come to rest -/

section

variable {as : List Act}

/-- The acts of a list, and for ever after nothing but tokens that are made up. -/
def endless (as : List Act) (n : Nat) : Act := as.getD n .mint

theorem endless_of_le {n : Nat} (hn : as.length ≤ n) : endless as n = .mint := by
  simp [endless, hn]

theorem past_endless (as : List Act) (n : Nat) :
    past (endless as) (as.length + n) = as ++ .replicate n .mint := by
  induction n with
  | zero =>
    refine List.ext_getElem (by simp [past]) fun i hi hi' => ?_
    have hlt : i < as.length := by simpa using hi'
    simp [past, endless, hlt]
  | succ n ih =>
    have hmint : endless as (as.length + n) = .mint := endless_of_le (Nat.le_add_right ..)
    rw [← Nat.add_assoc, past_succ, ih, hmint, List.replicate_succ', List.append_assoc]

/-- Tokens that are made up change neither tasks nor delays, and nothing is done meanwhile. -/
theorem after_mints (e : Engine) (n : Nat) :
    (e.after (.replicate n .mint)).tasks = e.tasks ∧
      (e.after (.replicate n .mint)).scheduler.timers.armed = e.scheduler.timers.armed ∧
      e.chronicle (.replicate n .mint) = [] := by
  induction n generalizing e with
  | zero => exact ⟨rfl, rfl, rfl⟩
  | succ n ih => exact ih (e.act .mint)

theorem amid_endless (e : Engine) {n : Nat} (hn : as.length ≤ n) :
    (e.amid (endless as) n).tasks = (e.after as).tasks ∧
      (e.amid (endless as) n).scheduler.timers.armed = (e.after as).scheduler.timers.armed ∧
      e.chronicle (past (endless as) n) = e.chronicle as := by
  obtain ⟨k, rfl⟩ := Nat.exists_eq_add_of_le hn
  obtain ⟨htasks, harmed, hchronicle⟩ := (e.after as).after_mints k
  rw [amid, past_endless, after_append, chronicle_append, hchronicle, List.append_nil]
  exact ⟨htasks, harmed, rfl⟩

theorem life_endless {k n : Nat} (hn : as.length ≤ n) :
    e.life k (past (endless as) n) = e.life k as := by
  rw [life, life, (e.amid_endless hn).2.2]

/-- Nothing is done but in the course of the acts. -/
theorem mem_chronicle_of_endless {n : Nat} {x : Chain × Deed}
    (hx : x ∈ e.chronicle (past (endless as) n)) : x ∈ e.chronicle as := by
  have hx := mem_chronicle_of_le hx (le_max_left n as.length)
  rwa [(e.amid_endless (le_max_right _ _)).2.2] at hx

theorem mem_life_of_endless {k n : Nat} {d : Deed} (hd : d ∈ e.life k (past (endless as) n)) :
    d ∈ e.life k as := by
  obtain ⟨c, hmem, hk⟩ := mem_life.1 hd
  exact mem_life.2 ⟨c, mem_chronicle_of_endless hmem, hk⟩

/-- A history that leaves no task and no delay behind unfolds for good if nothing happens any more,
no workflow starts itself and jumps have gone forward. -/
theorem IsNew.unfolds_endless (h : e.IsNew) (hR : R.IsAcyclic)
    (hregistry : ∀ a ∈ as, ∀ registry services, a = .addRunner registry services → registry = R)
    (hforward : ∀ d ∈ e.chronicle as, d.2.IsForward d.1.definition)
    (htasks : (e.after as).tasks = []) (harmed : (e.after as).scheduler.timers.armed = []) :
    e.Unfolds R (fun _ => true) (endless as) := by
  have hspent : ∀ n, (e.amid (endless as) (max n as.length)).tasks = [] ∧
      (e.amid (endless as) (max n as.length)).scheduler.timers.armed = [] := by
    intro n
    obtain ⟨htasks', harmed', -⟩ := e.amid_endless (le_max_right n as.length)
    exact ⟨htasks'.trans htasks, harmed'.trans harmed⟩
  have hpast : ∀ n, ∀ a ∈ past (endless as) n, a ∈ as ∨ a = .mint := by
    intro n a ha
    obtain ⟨i, -, rfl⟩ := List.mem_map.1 ha
    rw [endless, List.getD_eq_getElem?_getD]
    cases hi : as[i]? with
    | none => exact .inr rfl
    | some a => exact .inl (List.mem_of_getElem? hi)
  refine ⟨h, hR, fun n => e.isHereditary_all _, ⟨as.length, fun n hn hsome => ?_⟩,
    fun n t _ _ r q resuming below _ runner hrunner => ?_, fun n d hd _ => ?_,
    fun n k _ => ⟨max n as.length, le_max_left _ _, .inr ?_⟩,
    fun n x _ _ => ⟨max n as.length, le_max_left _ _, ?_⟩,
    fun n t _ _ o c i context s b below _ => ⟨max n as.length, le_max_left _ _, .inr ?_⟩⟩
  · rw [endless_of_le hn] at hsome
    cases hsome
  · refine h.registry_eq_of_runner (fun a ha registry services heq => ?_) hrunner
    rcases hpast n a ha with ha | rfl
    · exact hregistry a ha registry services heq
    · cases heq
  · have hmem : d ∈ e.chronicle (past (endless as) (n + 1)) := by
      rw [past_succ, chronicle_concat]
      exact List.mem_append_right _ hd
    exact hforward d (mem_chronicle_of_endless hmem)
  · rw [(hspent n).1]
    exact nofun
  · rw [(hspent n).2]
    exact List.not_mem_nil
  · rw [(hspent n).1]
    exact nofun

end

end Engine

/-! ## A workflow that starts another one, waits and jumps -/

namespace NestedDelayJump

/-- An instance is asked for that lasts a while. -/
def inner : Definition := ⟨"inner", [.delay .microsecond, .deciding fun _ => .proceed]⟩

/-- It is run and waited for; then a delay, and a jump over one step. -/
def outer : Definition :=
  ⟨"outer", [({ workflow := "inner", inst := some fun _ => .ok "b" } : Nested).step,
    .delay .microsecond, .jump "end", .deciding fun _ => .proceed,
    .named "end" (.deciding fun _ => .proceed)]⟩

def registry : Registry := ⟨(Table.empty.put "inner" inner).put "outer" outer⟩

def engine : Engine := { scheduler := { timers := { start := ⟨0⟩ } }, identity := fun _ => "" }

def acts : List Act :=
  [.addRunner registry .empty,
    .run ⟨0⟩ (.root 0) { workflow := "outer", inst := some "a", wait := true }] ++
    .replicate 12 (.advance 2) ++ .wake 0 :: .replicate 8 (.advance 6) ++
    .replicate 12 (.advance 2) ++ .wake 0 :: .replicate 12 (.advance 8) ++
    .replicate 2 (.advance 2)

theorem starts {v w : String} (h : registry.Starts v w) : v = "outer" ∧ w = "inner" := by
  obtain ⟨d, hd, i, context, context', r, q, next, ⟨s, hs, hleaves⟩, rfl⟩ := h
  -- A step that decides at once launches nothing.
  have deciding : ∀ {o : Outcome}, s.execute context ≠ .finish context o := by
    intro o ho
    rw [ho] at hleaves
    cases Behaviour.eq_of_leaves_finish hleaves
  have hmem : s ∈ d.steps := List.mem_of_getElem? hs
  rw [Registry.find?, registry, Table.get?_put, Table.get?_put] at hd
  split_ifs at hd with hv hv'
  · cases hd
    simp only [outer, List.mem_cons, List.not_mem_nil, or_false] at hmem
    obtain rfl | rfl | rfl | rfl | rfl := hmem
    · -- The nested step launches what it is for.
      have htame : q.IsTame ("inner" = ·) :=
        Nested.isTame_request rfl (Nested.launch_of_leaves hleaves).1
      exact ⟨hv, htame.1.symm⟩
    all_goals exact absurd rfl deciding
  · cases hd
    simp only [inner, List.mem_cons, List.not_mem_nil, or_false] at hmem
    obtain rfl | rfl := hmem
    all_goals exact absurd rfl deciding
  · cases hd

theorem isAcyclic : registry.IsAcyclic := by
  refine Registry.isAcyclic_of_lt (fun w => if w = "outer" then 1 else 0) fun v w h => ?_
  obtain ⟨rfl, rfl⟩ := starts h
  decide

theorem unfolds : engine.Unfolds registry (fun _ => true) (Engine.endless acts) := by
  have hends : (engine.after acts).tasks.isEmpty = true ∧
      (engine.after acts).scheduler.timers.armed.isEmpty = true := by decide +kernel
  refine Engine.IsNew.unfolds_endless ⟨rfl, rfl, rfl, rfl⟩ isAcyclic ?_ (by decide +kernel)
    (List.isEmpty_iff.1 hends.1) (List.isEmpty_iff.1 hends.2)
  intro a ha registry' services heq
  subst heq
  have hadd : registry' = registry ∧ services = .empty := by
    simpa [acts, List.mem_replicate] using ha
  exact hadd.1

/-- The outer instance jumps over a step, and the nested one goes well. -/
theorem goes : Deed.executions (engine.life 3 acts) = [0, 1, 2, 4] ∧
    Deed.GoesOn (engine.life 4 acts) ∧ ∀ d ∈ engine.life 4 acts, d.isSetback = false := by
  decide +kernel

theorem saves_alone : ∀ x ∈ engine.chronicle acts, x.2.saved?.isSome = true →
    (x.1.number = 4 ↔ x.1.inst = "b") := by
  decide +kernel

/-- **The outer instance comes to its end, and so does the one that it waits for**, at the position
behind its last step. -/
theorem comes_to_an_end :
    engine.Unfolds registry (fun _ => true) (Engine.endless acts) ∧
      ∃ N, ∀ n, N ≤ n → (engine.amid (Engine.endless acts) n).members = 0 ∧
        (engine.amid (Engine.endless acts) n).store.position? "b" = some 2 := by
  have hterminates := Engine.Unfolds.terminates unfolds
  obtain ⟨-, hgoes, hsetback⟩ := goes
  obtain ⟨c, opening, rest, hchronicle, hnumber, hinst, hsize⟩ :
      ∃ (c : Chain) (opening rest : List (Chain × Deed)),
        engine.chronicle acts = opening ++ (c, .started 0) :: rest ∧ c.number = 4 ∧
          c.inst = "b" ∧ c.definition.size = 2 := ⟨_, [_, _], _, rfl, rfl, rfl, rfl⟩
  obtain ⟨-, -, hall⟩ := engine.amid_endless (le_refl acts.length)
  have hstarted : (c, .started 0) ∈ engine.chronicle
      (Engine.past (Engine.endless acts) acts.length) := by
    rw [hall, hchronicle]
    exact List.mem_append_right _ List.mem_cons_self
  obtain ⟨N, hstops⟩ := hterminates.stops
  obtain ⟨M, hposition⟩ := hterminates.position _ c 0 hstarted rfl (by rw [hsize]; decide)
    (fun n => ⟨fun i o ho => hgoes i o (hnumber ▸ Engine.mem_life_of_endless ho),
      fun d hd => hsetback d (hnumber ▸ Engine.mem_life_of_endless hd)⟩)
    fun n before rest hsplit x hx next hsaved => by
      have hx : x ∈ engine.chronicle (Engine.past (Engine.endless acts) n) := by
        rw [hsplit]
        exact List.mem_append_right _ (List.mem_cons_of_mem _ hx)
      rw [hnumber, hinst]
      exact saves_alone x (Engine.mem_chronicle_of_endless hx) (by rw [hsaved]; rfl)
  refine ⟨unfolds, max N M, fun n hn => ⟨?_, ?_⟩⟩
  · refine Multiset.eq_zero_of_forall_notMem fun m hm => ?_
    cases (hstops n (le_of_max_le_left hn)).1 m hm
  · have hstored := hposition n (le_of_max_le_right hn)
    rwa [hinst, hsize] at hstored

/-! ## A position that cannot be saved -/

/-- Two steps that go on, in an engine whose store refuses the first position. -/
def pair : Definition := ⟨"pair", [.deciding fun _ => .proceed, .deciding fun _ => .proceed]⟩

def strict : Engine :=
  { scheduler := { timers := { start := ⟨0⟩ } }, identity := fun _ => "",
    store := { failsSaveAt := fun n => n == 1 } }

def pairs : Registry := ⟨Table.empty.put "pair" pair⟩

def attempt : List Act :=
  [.addRunner pairs .empty,
    .run ⟨0⟩ (.root 0) { workflow := "pair", inst := some "x", wait := true }] ++
    .replicate 10 (.advance 2)

theorem unfolds_attempt :
    strict.Unfolds pairs (fun _ => true) (Engine.endless attempt) := by
  have hends : (strict.after attempt).tasks.isEmpty = true ∧
      (strict.after attempt).scheduler.timers.armed.isEmpty = true := by decide +kernel
  refine Engine.IsNew.unfolds_endless ⟨rfl, rfl, rfl, rfl⟩ ?_ ?_ (by decide +kernel)
    (List.isEmpty_iff.1 hends.1) (List.isEmpty_iff.1 hends.2)
  · refine Registry.isAcyclic_of_lt (fun _ => 0) fun v w hstarts => ?_
    obtain ⟨d, hd, i, context, context', r, q, next, ⟨s, hs, hleaves⟩, rfl⟩ := hstarts
    have hmem : s ∈ d.steps := List.mem_of_getElem? hs
    rw [Registry.find?, pairs, Table.get?_put] at hd
    split_ifs at hd
    · cases hd
      simp only [pair, List.mem_cons, List.not_mem_nil, or_false, or_self] at hmem
      obtain rfl := hmem
      cases Behaviour.eq_of_leaves_finish hleaves
    · cases hd
  · intro a ha registry' services heq
    subst heq
    have hadd : registry' = pairs ∧ services = .empty := by
      simpa [attempt, List.mem_replicate] using ha
    exact hadd.1

/-- **A chain whose steps all go on does not execute each of them if a position is refused.** -/
theorem not_all_executed :
    ¬ ∀ (e : Engine) (R : Registry) (own : Nat → Bool) (acts : Nat → Act), e.Unfolds R own acts →
      ∀ b c p, (c, .started p) ∈ e.chronicle (Engine.past acts b) → own c.number = true →
        p ≤ c.definition.size → (∀ n, Deed.GoesOn (e.life c.number (Engine.past acts n))) →
          ∃ N, ∀ n, N ≤ n → (Deed.executions (e.life c.number (Engine.past acts n))).length =
            c.definition.size - p := by
  intro hall
  obtain ⟨c, rest, hchronicle, hnumber, hsize⟩ : ∃ c rest,
      strict.chronicle attempt = (c, .started 0) :: rest ∧ c.number = 3 ∧
        c.definition.size = 2 := ⟨_, _, rfl, rfl, rfl⟩
  have hlife : Deed.GoesOn (strict.life 3 attempt) ∧
      Deed.executions (strict.life 3 attempt) = [0] := by
    decide +kernel
  obtain ⟨-, -, hsame⟩ := strict.amid_endless (le_refl attempt.length)
  obtain ⟨N, hN⟩ := hall strict _ _ _ unfolds_attempt attempt.length c 0
    (by rw [hsame, hchronicle]; exact List.mem_cons_self) rfl (Nat.zero_le _)
    fun n i o ho => hlife.1 i o (hnumber ▸ Engine.mem_life_of_endless ho)
  have hcount := hN (max N attempt.length) (le_max_left _ _)
  rw [Engine.life_endless (le_max_right _ _), hnumber, hlife.2, hsize] at hcount
  cases hcount

end NestedDelayJump

end DurableFlow
