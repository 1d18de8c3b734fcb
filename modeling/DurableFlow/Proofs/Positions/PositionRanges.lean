import DurableFlow.Proofs.Histories.OutsideIncidents
import DurableFlow.Proofs.Histories.StoredRecords
import DurableFlow.Proofs.Positions.RestingChains

/-!
# Ranges of positions

Where an instance starts is not to be trusted: its position may have been saved for a longer
definition, or written from outside, and nothing bounds it. Yet positions stay in range from there
on. A step is executed only where there is one; so the position behind it is at most the one behind
the last step, and so is the place of a label, since labels are carried by steps. A chain that
starts behind the last step has nothing to do but to tell that it has completed.

Both are lasting properties of chains: `Phase.IsInRange` bounds what a chain is about to do, and
`Phase.IsSpent` says that it is past its last step. Main statement:
`Engine.IsNew.stays_in_range`.
-/

namespace DurableFlow

/-! ## Positions in range -/

/-- From a step of the definition, a position is saved that is one of a step, or the one behind the
last. -/
theorem Definition.saved_le {d : Definition} {i n : Nat} {o : Outcome} (h : d.saved? i o = some n)
    (hi : i < d.size) : n ≤ d.size := by
  cases o with
  | proceed => cases h; exact hi
  | delay duration => cases h; exact hi
  | wait message => cases h; exact hi.le
  | jump label => exact (labelIndex?_lt h).le
  | failure cause => cases h

theorem Plan.save_le {d : Definition} {context : Context} {i n : Nat} {now : Instant}
    {o : Outcome} {plan : Plan} (h : ofOutcome d context i now o = .ok plan) (hi : i < d.size)
    (hn : .save n ∈ plan.effects) : n ≤ d.size := by
  obtain ⟨effects, turn⟩ := plan
  obtain ⟨done, es, rfl⟩ := List.append_of_mem hn
  obtain ⟨-, hsaved⟩ := save_first h
  exact Definition.saved_le hsaved hi

/-- What a chain is about to do is in range. A chain that enters is not known to be: it may have
started anywhere. -/
def Phase.IsInRange (d : Definition) : Phase → Prop
  | .within i => i < d.size
  | .acting plan => ∀ n, .save n ∈ plan.effects → n ≤ d.size
  | .entering _ | .halting _ | .resting _ => True

/-- Steps are executed and return where there is one, jumps lead to steps, and no position beyond
the one behind the last step is saved. -/
def Deed.IsInRange (d : Definition) : Deed → Prop
  | .executed i => i < d.size
  | .returned i o => i < d.size ∧
      ∀ label target, o = .jump label → d.labelIndex? label = some target → target < d.size
  | .saved n | .unsaved n => n ≤ d.size
  | _ => True

section

variable {p p' : Nat} {c c' : Chain} {φ φ' : Phase} {ds : List Deed} {d : Deed}

/-- **A chain that is in range stays there by whatever it does.** -/
theorem Goes.isInRange (h : Goes p c φ ds p' c' φ') (hφ : φ.IsInRange c.definition) :
    φ'.IsInRange c.definition ∧ ∀ d ∈ ds, d.IsInRange c.definition := by
  have returned : ∀ {i o}, i < c.definition.size →
      ∀ d ∈ [Deed.returned i o], d.IsInRange c.definition := by
    intro i o hi d hd
    rw [List.mem_singleton.1 hd]
    exact ⟨hi, fun _ _ _ => Definition.labelIndex?_lt⟩
  cases h with
  | execute hi => simp [Phase.IsInRange, Deed.IsInRange, hi]
  | pass hi => simp [Phase.IsInRange, Deed.IsInRange, Plan.atEnd]
  | heed hr hplan => exact ⟨fun n hn => Plan.save_le hplan hφ hn, returned hφ⟩
  | misjump hr hplan => exact ⟨trivial, returned hφ⟩
  | save =>
    refine ⟨fun n hn => hφ n (List.mem_cons_of_mem _ hn), fun d hd => ?_⟩
    rw [List.mem_singleton.1 hd]
    exact hφ p' List.mem_cons_self
  | unsave =>
    refine ⟨trivial, fun d hd => ?_⟩
    rw [List.mem_singleton.1 hd]
    exact hφ _ List.mem_cons_self
  | publish => exact ⟨fun n hn => hφ n (List.mem_cons_of_mem _ hn), by simp [Deed.IsInRange]⟩
  | settle => exact ⟨fun n hn => hφ n (List.mem_cons_of_mem _ hn), by simp [Deed.IsInRange]⟩
  | _ => exact ⟨trivial, by simp [Deed.IsInRange]⟩

theorem Account.lasting_isInRange (S : Standard) :
    Lasting S fun c φ => φ.IsInRange c.definition := by
  intro p c φ ds p' c' φ' _ hφ hgo
  rw [hgo.definition_eq]
  exact (hgo.isInRange hφ).1

theorem Occurs.isInRange (h : Occurs p (some (c, φ)) d) (hφ : φ.IsInRange c.definition) :
    d.IsInRange c.definition := by
  cases h with
  | go hgo => exact (hgo.isInRange hφ).2 d (List.mem_singleton_self d)
  | ended hd => cases hd <;> trivial

end

/-! ## Behind the last step -/

/-- A chain in the phase is past its last step: there is nothing left but to tell that it has
completed. -/
def Phase.IsSpent (d : Definition) (context : Context) : Phase → Prop
  | .entering i => d.size ≤ i
  | .acting plan => ∃ done, Plan.atEnd context = ⟨done ++ plan.effects, plan.turn⟩
  | .halting _ => True
  | .within _ | .resting _ => False

/-- What is done for a chain that starts behind the last step: it is told to have completed, unless
it breaks off. -/
def Deed.IsFormal (d : Definition) (context : Context) : Deed → Prop
  | .started p => d.size ≤ p
  | .passed output => output = context.output
  | .published notice | .refused notice => notice = ⟨context.inst, d.name, .completed⟩
  | .settled s => s = .ok ⟨context.inst, .completed, context.output⟩
  | .stopped result => result = ⟨context.inst, .completed, context.output⟩
  | .halted _ | .lost => True
  | _ => False

namespace Phase

variable {d : Definition} {context : Context} {e : Effect} {es : List Effect} {turn : Turn}

/-- What is left after an effect is left at the end, too. -/
theorem IsSpent.tail (h : (acting ⟨e :: es, turn⟩).IsSpent d context) :
    (acting ⟨es, turn⟩).IsSpent d context := by
  obtain ⟨done, hplan⟩ := h
  exact ⟨done ++ [e], by simpa using hplan⟩

theorem not_isSpent_of_save {n : Nat} : ¬ (acting ⟨.save n :: es, turn⟩).IsSpent d context := by
  rintro ⟨done, hplan⟩
  exact Plan.save_not_mem_atEnd hplan n (List.mem_append_right _ List.mem_cons_self)

theorem not_isSpent_of_next {j : Nat} (hnext : turn.next? = some j) :
    ¬ (acting ⟨es, turn⟩).IsSpent d context := by
  rintro ⟨done, hplan⟩
  cases (Plan.atEnd_next hplan).symm.trans hnext

end Phase

section

variable {p p' : Nat} {c c' : Chain} {φ φ' : Phase} {ds : List Deed} {d : Deed}

/-- **A chain that is past its last step stays so by whatever it does**, and all that it does is to
tell that it has completed. -/
theorem Goes.isSpent (h : Goes p c φ ds p' c' φ') (hφ : φ.IsSpent c.definition c.context) :
    c'.context = c.context ∧ φ'.IsSpent c.definition c.context ∧
      ∀ d ∈ ds, d.IsFormal c.definition c.context := by
  cases h with
  | execute hi => exact absurd hi (Nat.not_lt.2 hφ)
  | pass hi => exact ⟨rfl, ⟨[], rfl⟩, by simp [Deed.IsFormal]⟩
  | withdraw => exact ⟨rfl, trivial, by simp⟩
  | abort => exact hφ.elim
  | heed => exact hφ.elim
  | misjump => exact hφ.elim
  | wake => exact hφ.elim
  | save => exact absurd hφ Phase.not_isSpent_of_save
  | unsave => exact absurd hφ Phase.not_isSpent_of_save
  | publish =>
    obtain ⟨done, hplan⟩ := hφ
    obtain ⟨rfl, -⟩ := Plan.publish_atEnd hplan
    exact ⟨rfl, .tail ⟨done, hplan⟩, by simp [Deed.IsFormal, Chain.notice, Chain.inst]⟩
  | refuse =>
    obtain ⟨done, hplan⟩ := hφ
    obtain ⟨rfl, -⟩ := Plan.publish_atEnd hplan
    exact ⟨rfl, trivial, by simp [Deed.IsFormal, Chain.notice, Chain.inst]⟩
  | settle =>
    obtain ⟨done, hplan⟩ := hφ
    obtain ⟨-, rfl, -⟩ := Plan.settle_atEnd hplan
    exact ⟨rfl, .tail ⟨done, hplan⟩, by simp [Deed.IsFormal]⟩
  | arrive => exact absurd hφ (Phase.not_isSpent_of_next rfl)
  | suspend => exact absurd hφ (Phase.not_isSpent_of_next rfl)
  | unschedule => exact absurd hφ (Phase.not_isSpent_of_next rfl)

theorem Occurs.isFormal (h : Occurs p (some (c, φ)) d)
    (hφ : φ.IsSpent c.definition c.context) : d.IsFormal c.definition c.context := by
  cases h with
  | go hgo => exact (hgo.isSpent hφ).2.2 d (List.mem_singleton_self d)
  | ended hd =>
    cases hd with
    | stop =>
      obtain ⟨done, hplan⟩ := hφ
      obtain ⟨-, hturn⟩ := Plan.mk.inj hplan
      cases hturn
      rfl
    | halt => trivial
    | panic => exact hφ
    | drop => exact hφ
    | lose => trivial

end

namespace Account

/-- The chain of a number that is past its last step stays so. -/
theorem lasting_isSpent_of_number (S : Standard) (c : Chain) : Lasting S fun c' φ =>
    c'.number = c.number → c'.definition = c.definition ∧ c'.context = c.context ∧
      φ.IsSpent c.definition c.context := by
  intro p c₁ φ ds p' c' φ' _ hc₁ hgo hk
  obtain ⟨hdefinition, hcontext, hspent⟩ := hc₁ (hgo.number_eq.symm.trans hk)
  rw [← hdefinition, ← hcontext] at hspent
  obtain ⟨hcontext', hspent', -⟩ := hgo.isSpent hspent
  rw [hdefinition, hcontext] at hspent'
  exact ⟨hgo.definition_eq.trans hdefinition, hcontext'.trans hcontext, hspent'⟩

/-- The chains of an instance that are past their last steps stay so, if they are loyal. -/
theorem lasting_isSpent_of_inst (x : String) :
    Lasting .loyal fun c φ => c.inst = x → φ.IsSpent c.definition c.context := by
  intro p c φ ds p' c' φ' hloyal hc hgo hx
  obtain ⟨hcontext, hspent, -⟩ := hgo.isSpent (hc ((hgo.inst_eq hloyal).symm.trans hx))
  rw [hgo.definition_eq, hcontext]
  exact hspent

end Account

/-! ## Saves that fail -/

/-- A save of a position that fits a row fails by chance, or because the database is closed. -/
theorem Store.error_cases {s : Store} {x : String} {n : Nat} {error : StoreError}
    (h : (s.save x n).2 = .error error) (hn : n ≤ Database.largest) :
    s.failsSave = true ∨ ∃ db, s.backing = .database db ∧ db.isOpen = false := by
  by_cases hfails : s.failsSave = true
  · exact .inl hfails
  · right
    cases hb : s.backing with
    | memory t => simp [save, hfails, hb, Backing.save] at h
    | database db =>
      refine ⟨db, rfl, ?_⟩
      cases hopen : db.isOpen with
      | false => rfl
      | true => simp [save, hfails, hb, Backing.save, Database.save, hn, hopen, Except.map] at h

namespace Engine

/-! ## Incidents in range -/

/-- An incident keeps positions in range. -/
structure KeepsRange (m : Engine) (i : Incident) : Prop where
  /-- A step is executed only where there is one. -/
  executed : ∀ c j, (c, .executed j) ∈ m.upon i → j < c.definition.size
  /-- It returns there, and the position behind it can be counted. -/
  returned : ∀ c j o, (c, .returned j o) ∈ m.upon i →
    j < c.definition.size ∧ (c.definition.size ≤ Database.largest → j + 1 < UInt64.size)
  /-- A jump leads to a step. -/
  jumped : ∀ c j label target, (c, .returned j (.jump label)) ∈ m.upon i →
    c.definition.labelIndex? label = some target → target < c.definition.size
  /-- A position that the store is told to save is at most the one behind the last step, and fits
  a row. -/
  saving : ∀ c d n, (c, d) ∈ m.upon i → d = .saved n ∨ d = .unsaved n →
    n ≤ c.definition.size ∧ (c.definition.size ≤ Database.largest → n ≤ Database.largest)
  /-- A position that has been saved is the one that the store tells. -/
  saved : ∀ c n, (c, .saved n) ∈ m.upon i →
    (m.incur i).store.backing.load c.inst = .ok (some n)
  /-- A position is never refused for its size: the save fails by chance, or the database is
  closed. -/
  unsaved : ∀ c n, (c, .unsaved n) ∈ m.upon i → c.definition.size ≤ Database.largest →
    m.store.failsSave = true ∨ ∃ db, m.store.backing = .database db ∧ db.isOpen = false

variable {e m : Engine} {i : Incident} {is : List Incident} {c : Chain} {p : Nat} {x : String}

theorem keepsRange_of_isInRange (h : ∀ s ∈ m.upon i, s.2.IsInRange s.1.definition) :
    m.KeepsRange i := by
  have hsaving : ∀ c d n, (c, d) ∈ m.upon i → d = .saved n ∨ d = .unsaved n →
      n ≤ c.definition.size ∧ (c.definition.size ≤ Database.largest → n ≤ Database.largest) := by
    intro c d n hd hn
    have hle : n ≤ c.definition.size := by obtain rfl | rfl := hn <;> exact h _ hd
    exact ⟨hle, hle.trans⟩
  refine ⟨fun c j hd => h _ hd, fun c j o hd => ?_, fun c j label target hd => ?_, hsaving,
    fun c n hd => ?_, fun c n hd hsize => ?_⟩
  · have hj : j < c.definition.size := (h _ hd).1
    have hsmall : Database.largest < UInt64.size := by decide
    exact ⟨hj, fun hsize => by omega⟩
  · obtain ⟨-, hjump⟩ := h _ hd
    exact hjump label target rfl
  · cases i with
    | act a => exact load_of_saved hd
    | write f => cases hd
    | dispatch token chain start => cases List.mem_singleton.1 hd
  · obtain ⟨-, hfits⟩ := hsaving c _ n hd (.inr rfl)
    cases i with
    | act a =>
      obtain ⟨error, herror⟩ := error_of_unsaved hd
      exact Store.error_cases herror (hfits hsize)
    | write f => cases hd
    | dispatch token chain start => cases List.mem_singleton.1 hd

/-- **Whatever happens to a new engine, what it does is in range.** -/
theorem IsNew.isInRange (h : e.IsNew) (is : List Incident) :
    ∀ s ∈ e.ledger is, s.2.IsInRange s.1.definition := by
  have hpairs : ∀ s ∈ e.account.pairs, s.2.IsInRange s.1.definition := by
    rw [h.pairs_eq]
    simp
  obtain ⟨-, hdone⟩ := (h.sound .any).keeps_through (fun i _ => i.meets_any)
    (Account.lasting_isInRange .any) hpairs fun c p _ => trivial
  rintro ⟨c, d⟩ hs
  obtain ⟨p, rfl⟩ | ⟨p, φ, hφ, hoccurs⟩ := hdone _ hs
  · trivial
  · exact hoccurs.isInRange hφ

/-! ## Starts behind the last step -/

/-- **A chain that starts behind the last step executes nothing and saves nothing**: it is told to
have completed. -/
theorem IsNew.isFormal (h : e.IsNew) (hstarted : (c, .started p) ∈ e.ledger is)
    (hp : c.definition.size ≤ p) {c' : Chain} {d : Deed} (hd : (c', d) ∈ e.ledger is)
    (hk : c'.number = c.number) : d.IsFormal c.definition c.context := by
  have hlives := h.lives_through is
  have hpairs : ∀ s ∈ e.account.pairs, s.1.number = c.number →
      s.1.definition = c.definition ∧ s.1.context = c.context ∧
        s.2.IsSpent c.definition c.context := by
    rw [h.pairs_eq]
    simp
  obtain ⟨-, hdone⟩ := (h.sound .any).keeps_through (fun i _ => i.meets_any)
    (Account.lasting_isSpent_of_number .any c) hpairs fun c₁ p₁ hc₁ hk₁ => by
      obtain ⟨rfl, rfl⟩ := hlives.started_inj hstarted hc₁ hk₁
      exact ⟨rfl, rfl, hp⟩
  obtain ⟨p', heq⟩ | ⟨p', φ, hφ, hoccurs⟩ := hdone _ hd
  · have heq : d = .started p' := heq
    subst heq
    obtain ⟨-, rfl⟩ := hlives.started_inj hstarted hd hk
    exact hp
  · obtain ⟨hdefinition, hcontext, hspent⟩ := hφ hk
    rw [← hdefinition, ← hcontext] at hspent ⊢
    exact hoccurs.isFormal hspent

/-- An instance has completed, and is only run and resumed from then on: none of its chains is under
way, its position is behind the last step of each definition with which it is started, and neither
is that position written from outside nor a chain of the instance driven from another one. -/
structure HasCompleted (m : Engine) (x : String) (is : List Incident) : Prop where
  idle : ∀ c ∈ m.chains, c.inst ≠ x
  size_le : ∀ c p, (c, .started p) ∈ m.ledger is → c.inst = x →
    c.definition.size ≤ m.position x
  untouched : ∀ f, .write f ∈ is → ∀ s, (f s).backing.load x = s.backing.load x
  undirected : ∀ token c start, .dispatch token c start ∈ is → c.inst ≠ x

theorem HasCompleted.left {js : List Incident} (h : m.HasCompleted x (is ++ js)) :
    m.HasCompleted x is where
  idle := h.idle
  size_le c p hd := h.size_le c p (by rw [ledger_append]; exact List.mem_append_left _ hd)
  untouched f hf := h.untouched f (List.mem_append_left _ hf)
  undirected token c start hi := h.undirected token c start (List.mem_append_left _ hi)

/-- **Running and resuming an instance that has completed leaves its position as it is**, and its
chains stay behind the last step. -/
theorem HasCompleted.load_through (hdone : m.HasCompleted x is) (h : m.Sound .loyal)
    (his : ∀ i ∈ is, i.Meets .loyal) :
    (m.through is).store.backing.load x = m.store.backing.load x ∧
      ∀ s ∈ (m.through is).account.pairs, s.1.inst = x →
        s.2.IsSpent s.1.definition s.1.context := by
  induction is using List.reverseRecOn with
  | nil =>
    refine ⟨rfl, fun s hs hx => ?_⟩
    have hmem : s.1 ∈ m.account.pairs.map Prod.fst := Multiset.mem_map_of_mem _ hs
    rw [map_fst_pairs] at hmem
    exact absurd hx (hdone.idle s.1 hmem)
  | append_singleton is i ih =>
    have hbefore : ∀ j ∈ is, j.Meets .loyal := fun j hj => his j (List.mem_append_left _ hj)
    have hlast : i ∈ is ++ [i] := List.mem_append_right _ List.mem_cons_self
    obtain ⟨hload, hspent⟩ := ih hdone.left hbefore
    have hsound : (m.through is).Sound .loyal := h.through hbefore
    have hposition : (m.through is).position x = m.position x := by
      simp only [position, Store.position?, hload]
    -- Whoever starts for the instance does so at the stored position, which is behind the end.
    have hstart : ∀ c p, (c, .started p) ∈ (m.through is).upon i → c.inst = x →
        (Phase.entering p).IsSpent c.definition c.context := by
      intro c p hd hx
      have hsize : c.definition.size ≤ m.position x := by
        refine hdone.size_le c p ?_ hx
        rw [ledger_concat]
        exact List.mem_append_right _ hd
      cases i with
      | act a =>
        obtain ⟨-, hpasses⟩ := hsound.act (his _ hlast)
        obtain ⟨-, hp⟩ := hpasses.started hd
        have hp : p = m.position x := hp.trans (hx ▸ hposition)
        exact hp ▸ hsize
      | write f => cases hd
      | dispatch token chain start =>
        cases List.mem_singleton.1 hd
        exact absurd hx (hdone.undirected token chain _ hlast)
    obtain ⟨-, hhappens⟩ := hsound.incur (his i hlast)
    obtain ⟨hspent', hdeeds⟩ :=
      hhappens.keeps (Account.lasting_isSpent_of_inst x) hstart hspent
    rw [through_concat]
    refine ⟨?_, hspent'⟩
    rw [← hload]
    cases i with
    | act a =>
      refine load_act fun c n hd hx => ?_
      obtain ⟨p, heq⟩ | ⟨p, φ, hφ, hoccurs⟩ := hdeeds _ hd
      · cases heq
      · exact hoccurs.isFormal (hφ hx)
    | write f => exact hdone.untouched f hlast _
    | dispatch token chain start => rfl

/-- **Positions stay in range.** Whatever happens to a new engine and to its store, from whatever
positions chains start, and whatever delays and jumps take them on: a step is executed only where
there is one, jumps lead to steps, and a position that is saved is at most the one behind the last
step. If definitions have no more steps than a row can count, then the position behind a step can
be counted in 64 bits, and a row takes every position that is saved.

A chain that starts behind the last step executes no step and saves nothing, and what it publishes
is that the instance has completed. So to run and to resume an instance that has completed leaves
its position as it is. -/
theorem IsNew.stays_in_range (h : e.IsNew) (is : List Incident) :
    (∀ before i after, is = before ++ i :: after → (e.through before).KeepsRange i) ∧
    (∀ c p, (c, .started p) ∈ e.ledger is → c.definition.size ≤ p →
      ∀ c' d, (c', d) ∈ e.ledger is → c'.number = c.number →
        d.IsFormal c.definition c.context) ∧
    ((∀ i ∈ is, i.Meets .loyal) → ∀ x before after, is = before ++ after →
      (e.through before).HasCompleted x after →
        (e.through is).store.backing.load x = (e.through before).store.backing.load x) := by
  refine ⟨?_, fun c p hstarted hp c' d hd hk => h.isFormal hstarted hp hd hk, ?_⟩
  · rintro before i after rfl
    exact keepsRange_of_isInRange fun s hs => h.isInRange _ s (mem_ledger hs after)
  · rintro hloyal x before after rfl hcompleted
    have hsound : (e.through before).Sound .loyal :=
      (h.sound .loyal).through fun i hi => hloyal i (List.mem_append_left _ hi)
    obtain ⟨hload, -⟩ := hcompleted.load_through hsound
      fun i hi => hloyal i (List.mem_append_right _ hi)
    rw [through_append]
    exact hload

end Engine

/-! ## A workflow that is started behind its end -/

namespace OverwrittenPosition

/-- A delay, and a jump over a step to the last one. -/
def definition : Definition :=
  ⟨"overshoot", [.delay .microsecond, .jump "last", .deciding fun _ => .proceed,
    .named "last" (.deciding fun _ => .proceed)]⟩

def registry : Registry := ⟨.put .empty "overshoot" definition⟩

def engine : Engine := { scheduler := { timers := { start := ⟨0⟩ } }, identity := fun _ => "" }

def request : Request := { workflow := "overshoot", inst := some "x", wait := true }

/-- An instance is run to its end. -/
def opening : List Act :=
  [.addRunner registry .empty, .run ⟨0⟩ (.root 0) request] ++ .replicate 7 (.advance 2) ++
    .wake 0 :: .replicate 14 (.advance 5) ++ .replicate 2 (.advance 2)

/-- Its position is overwritten with the largest that 64 bits hold. -/
def overwrite (s : Store) : Store := { s with backing := .memory (.put .empty "x" (UInt64.size - 1)) }

/-- Another instance, which is driven from there. -/
def chain : Chain where
  definition := definition
  context := { inst := "y", workflow := "overshoot" }
  dispatcher := ⟨1⟩

/-- What happens before the instance is run again. -/
def before : List Incident :=
  opening.map .act ++ [.write overwrite, .dispatch (.root 0) chain (UInt64.size - 1)]

/-- The other instance comes to its end, and the first one is run and resumed. -/
def again : List Act :=
  .replicate 5 (.advance 6) ++ .run ⟨0⟩ (.root 0) request :: .replicate 8 (.advance 7) ++
    .resume ⟨0⟩ (.root 0) "overshoot" "x" { name := "go" } :: .replicate 8 (.advance 9)

def incidents : List Incident := before ++ again.map .act

theorem isLoyal_definition : definition.IsLoyal := by
  intro s hs
  simp only [definition, List.mem_cons, List.not_mem_nil, or_false] at hs
  obtain rfl | rfl | rfl | rfl := hs
  · exact Step.isLoyal_deciding _
  · exact Step.isLoyal_deciding _
  · exact Step.isLoyal_deciding _
  · exact Step.isLoyal_named "last" (Step.isLoyal_deciding _)

theorem meets_incidents : ∀ i ∈ incidents, i.Meets .loyal := by
  have hopening : ∀ a ∈ opening, a.Meets .loyal :=
    Act.forall_meets (Registry.meets_empty.put _ isLoyal_definition) rfl
  have hagain : ∀ a ∈ again, a.Meets .loyal := fun a ha =>
    Act.meets_of_isPlain (List.all_eq_true.1 (show again.all Act.isPlain = true from rfl) a ha)
  intro i hi
  simp only [incidents, before, List.mem_append, List.mem_map, List.mem_cons, List.not_mem_nil,
    or_false] at hi
  obtain (⟨a, ha, rfl⟩ | rfl | rfl) | ⟨a, ha, rfl⟩ := hi
  · exact hopening a ha
  · trivial
  · exact isLoyal_definition
  · exact hagain a ha

theorem hasCompleted : (engine.through before).HasCompleted "x" (again.map .act) where
  idle := by decide +kernel
  size_le := by
    have hsize : ∀ s ∈ (engine.through before).ledger (again.map .act), s.1.inst = "x" →
        s.1.definition.size ≤ (engine.through before).position "x" := by decide +kernel
    exact fun c p hd hx => hsize _ hd hx
  untouched f hf := by simp at hf
  undirected token c start hi := by simp at hi

/-- **No step is executed behind the last one**: three are in the first run, one of them behind the
jump, and none afterwards. All that is published afterwards is that the instances have completed,
and the position of the first one stays the largest that there is. -/
theorem kept_in_range :
    engine.IsNew ∧
      Deed.executions ((engine.ledger incidents).map Prod.snd) = [0, 1, 3] ∧
      (Deed.announcements ((engine.ledger incidents).map Prod.snd)).map Notice.topic =
        [.delayed, .completed, .completed, .completed, .completed] ∧
      (engine.through (incidents.take 3)).KeepsRange (.act (.advance 2)) ∧
      (∀ c d, (c, d) ∈ engine.ledger incidents → c.number = 6 →
        d.IsFormal definition chain.context) ∧
      (engine.through incidents).store.backing.load "x" = .ok (some (UInt64.size - 1)) := by
  have hnew : engine.IsNew := ⟨rfl, rfl, rfl, rfl⟩
  obtain ⟨hrange, hformal, hcompleted⟩ := Engine.IsNew.stays_in_range hnew incidents
  have hnumber : (engine.through (opening.map .act ++ [.write overwrite])).next = 6 := by
    decide +kernel
  have hstarted : ({ chain with number := 6 }, .started (UInt64.size - 1)) ∈
      engine.ledger incidents := by
    have hsplit : incidents = (opening.map .act ++ [.write overwrite]) ++
        .dispatch (.root 0) chain (UInt64.size - 1) :: again.map .act := by simp [incidents, before]
    rw [hsplit]
    refine Engine.mem_ledger ?_ _
    rw [Engine.upon, hnumber]
    exact List.mem_singleton_self _
  have hload : (engine.through before).store.backing.load "x" = .ok (some (UInt64.size - 1)) := by
    rw [before, Engine.through_append]
    rfl
  refine ⟨hnew, by decide +kernel, by decide +kernel, hrange _ _ (incidents.drop 4) rfl,
    fun c d hd hk => hformal _ _ hstarted (by decide) c d hd hk, ?_⟩
  exact (hcompleted meets_incidents "x" before (again.map .act) rfl hasCompleted).trans hload

end OverwrittenPosition

end DurableFlow
