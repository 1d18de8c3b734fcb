import DurableFlow.Proofs.Delays.PendingDelays
import DurableFlow.Proofs.Cancellation.CancelledCallers

/-!
# What the store has on record

What is known of the store in the course of a history: an act leaves what is kept there as it is,
unless a position is saved by it (`Engine.backing_act`), and then the store tells that position
(`Engine.load_of_saved`). So once a position of an instance is on record, one is from then on, and
one is on record once a position of the instance has been saved
(`Engine.isOnRecord_of_mem_story`). And what is known of panics: a chain is torn down only by a step
that may panic (`Engine.Sound.within_of_panicked`).
-/

namespace DurableFlow

namespace Engine

/-- The store holds a position of the instance. -/
def IsOnRecord (e : Engine) (x : String) : Prop := ∃ p, e.store.backing.load x = .ok (some p)

/-- Whatever is on record stays so. -/
def Files (e e' : Engine) : Prop := ∀ x, e.IsOnRecord x → e'.IsOnRecord x

variable {e m : Engine} {t : Task} {o : Origin} {c : Chain} {below : List Frame} {x : String}
  {next : Nat} {as : List Act}

theorem files_of_backing {e' : Engine} (h : e'.store.backing = e.store.backing) : e.Files e' := by
  intro x hx
  rwa [IsOnRecord, h]

/-- The store tells a position that has been saved. -/
theorem load_save_self (h : (e.save x next).2 = .ok ()) :
    (e.save x next).1.store.backing.load x = .ok (some next) := by
  obtain ⟨b, hb, hsaved, -⟩ | ⟨error, -, herror⟩ := Store.save_cases e.store x next
  · have hbacking : (e.save x next).1.store.backing = b := hsaved
    rw [hbacking]
    exact Backing.load_save_self hb
  · cases herror.symm.trans h

/-- Whatever comes of a save, the store tells what it told of the other instances. -/
theorem load_save_of_ne (e : Engine) {x y : String} (next : Nat) (hne : y ≠ x) :
    (e.save x next).1.store.backing.load y = e.store.backing.load y := by
  obtain ⟨b, hb, hsaved, -⟩ | ⟨error, hsame, -⟩ := Store.save_cases e.store x next
  · have hbacking : (e.save x next).1.store.backing = b := hsaved
    rw [hbacking]
    exact Backing.load_save_of_ne hb hne
  · exact congrArg (Backing.load · y) hsame

/-- A save keeps positions on record. -/
theorem files_save (e : Engine) (x : String) (next : Nat) : e.Files (e.save x next).1 := by
  intro y hy
  by_cases hne : y = x
  · subst hne
    obtain ⟨b, -, -, hok⟩ | ⟨error, hsame, -⟩ := Store.save_cases e.store y next
    · exact ⟨next, load_save_self hok⟩
    · exact files_of_backing hsame y hy
  · rw [IsOnRecord, e.load_save_of_ne next hne]
    exact hy

theorem store_wake (e : Engine) (place : Nat) : (e.act (.wake place)).store = e.store := by
  cases hx : e.scheduler.timers.armed[place]? with
  | none => simp [act, hx]
  | some x => rw [act_wake hx]; rfl

theorem store_lay (e : Engine) (c : Chain) (τ : Token) (next : Nat) (due : Instant) :
    (e.lay c τ next due).1.store = e.store := by
  rw [lay_eq]

theorem store_suspend (e : Engine) (c : Chain) (τ : Token) (next : Nat) (due : Instant) :
    (e.suspend c τ next due).1.store = e.store := by
  have hlaid := e.store_lay c τ next due
  rw [suspend_eq_lay]
  generalize e.lay c τ next due = laid at hlaid ⊢
  obtain ⟨m, result⟩ := laid
  cases result with
  | error fault => exact hlaid
  | ok _ =>
    obtain hsame | ⟨x, -, hwake⟩ := releaseDue_eq m
    · dsimp only
      rw [hsame]
      exact hlaid
    · dsimp only
      rw [hwake, store_wake]
      exact hlaid

/-! ## Moves -/

/-- **A move leaves the backing as it is, unless a plan saves a position.** -/
theorem backing_move (e : Engine) (t : Task) :
    ((e.move t).engine e).store.backing = e.store.backing ∨
      t.parked = false ∧ ∃ o c next es turn below,
        t.frames = .driving o c (.acting ⟨.save next :: es, turn⟩) :: below ∧
          (e.save c.inst next).2 = .ok () ∧
            ((e.move t).engine e).store = (e.save c.inst next).1.store := by
  have himprints := e.imprints_move t
  generalize (e.move t).engine e = m at himprints ⊢
  cases himprints with
  | nothing => exact .inl rfl
  | writes x => exact .inl rfl
  | cancels => exact .inl rfl
  | publishes notice =>
    left
    rw [publish_eq]
  | settles ht s =>
    left
    rw [settle_eq]
  | @saves o c next es turn below hp ht =>
    rcases Store.save_cases e.store c.inst next with ⟨b, -, -, hok⟩ | ⟨error, hsame, -⟩
    · exact .inr ⟨hp, o, c, next, es, turn, below, ht, hok, rfl⟩
    · exact .inl hsame
  | rests hp ht => exact .inl (congrArg Store.backing (e.store_suspend ..))
  | consults q journal => exact .inl (Store.load_backing _ _)
  | starts q journal => exact .inl (Store.load_backing _ _)

/-- **An act leaves the backing as it is, unless a position is saved by it.** -/
theorem backing_act (e : Engine) (a : Act) :
    (e.act a).store.backing = e.store.backing ∨
      ∃ c next, (c, .saved next) ∈ e.deeds a ∧ (e.act a).store = (e.save c.inst next).1.store := by
  cases a with
  | advance n =>
    cases htask : e.task? n with
    | none => exact .inl (congrArg (Store.backing ∘ Engine.store) (act_advance_none htask))
    | some t =>
      have hstore : (e.act (.advance n)).store = ((e.move t).engine e).store := by
        obtain ⟨tasks, endings, hact⟩ := act_advance_eq htask
        rw [hact]
      rw [hstore]
      obtain hsame | ⟨hp, o, c, next, es, turn, below, hframes, hsaved, hsaves⟩ := e.backing_move t
      · exact .inl hsame
      · refine .inr ⟨c, next, ?_, hsaves⟩
        simp [deeds, htask, deedsOf, hp, hframes, deed?, hsaved]
  | wake place => exact .inl (congrArg Store.backing (e.store_wake place))
  | cancelDelay d inst =>
    obtain ⟨pending, cancelled, heq, -, -⟩ := e.cancelDelay_eq d inst
    left
    rw [act, heq]
  | _ => exact .inl rfl

/-- **Every act keeps positions on record.** -/
theorem files_act (e : Engine) (a : Act) : e.Files (e.act a) := by
  obtain hsame | ⟨c, next, -, hstore⟩ := e.backing_act a
  · exact files_of_backing hsame
  · intro x hx
    rw [IsOnRecord, hstore]
    exact e.files_save c.inst next x hx

/-- **An act by which no position of an instance is saved leaves what the store tells of it as it
is.** -/
theorem load_act {a : Act} (hnone : ∀ c next, (c, .saved next) ∈ e.deeds a → c.inst ≠ x) :
    (e.act a).store.backing.load x = e.store.backing.load x := by
  obtain hsame | ⟨c, next, hd, hstore⟩ := e.backing_act a
  · rw [hsame]
  · rw [hstore]
    exact e.load_save_of_ne next (hnone c next hd).symm

theorem files_after (e : Engine) (as : List Act) : e.Files (e.after as) := by
  induction as using List.reverseRecOn with
  | nil => exact fun _ hx => hx
  | append_singleton as a ih =>
    rw [after_concat]
    exact fun x hx => (e.after as).files_act a x (ih x hx)

/-! ## What deeds tell -/

/-- A step returns when it has finished. -/
theorem task_of_returned {i : Nat} {o : Outcome} {a : Act}
    (hd : (c, .returned i o) ∈ m.deeds a) :
    ∃ t, m.task? t.number = some t ∧ a = .advance t.number ∧ t.parked = false ∧
      ∃ origin context below,
        t.frames = .driving origin c (.inside i (.finish context o)) :: below := by
  obtain ⟨n, t, rfl, ht, hp, origin, stage, below, hframes, hdeed⟩ := task_of_work hd rfl
  obtain ⟨-, rfl⟩ := task?_eq_some ht
  refine ⟨t, ht, rfl, hp, origin, ?_⟩
  unfold deed? at hdeed
  split at hdeed <;> try cases hdeed
  · split at hdeed
    · cases hdeed
    · split at hdeed <;> cases hdeed
  · exact ⟨_, below, hframes⟩
  · split at hdeed <;> cases hdeed
  · split at hdeed <;> cases hdeed
  · split at hdeed <;> cases hdeed

/-- A position is saved by a plan that says so, if the store takes it, and is not if the store does
not. -/
theorem task_of_saving {a : Act} {d : Deed} (hd : (c, d) ∈ m.deeds a)
    (hsaving : d = .saved next ∨ d = .unsaved next) :
    ∃ n t, a = .advance n ∧ m.task? n = some t ∧ t.parked = false ∧ ∃ o es turn below,
      t.frames = .driving o c (.acting ⟨.save next :: es, turn⟩) :: below ∧
        (d = .saved next ∧ (m.save c.inst next).2 = .ok () ∨
          d = .unsaved next ∧ ∃ error, (m.save c.inst next).2 = .error error) := by
  have hwork : d.isWork = true := by obtain rfl | rfl := hsaving <;> rfl
  obtain ⟨n, t, ha, ht, hp, o, stage, below, hframes, hdeed⟩ := task_of_work hd hwork
  refine ⟨n, t, ha, ht, hp, o, ?_⟩
  unfold deed? at hdeed
  split at hdeed
  case h_6 next' es turn =>
    split at hdeed
    · rename_i hsave
      cases hdeed
      obtain rfl : next' = next := by simpa using hsaving
      exact ⟨es, turn, below, hframes, .inl ⟨rfl, hsave⟩⟩
    · rename_i error hsave
      cases hdeed
      obtain rfl : next' = next := by simpa using hsaving
      exact ⟨es, turn, below, hframes, .inr ⟨rfl, error, hsave⟩⟩
  -- No other stage is about positions.
  all_goals
    repeat' split at hdeed
    all_goals cases hdeed <;> simp at hsaving

/-- A position that was not saved is one that the store did not take. -/
theorem error_of_unsaved {a : Act} (hd : (c, .unsaved next) ∈ m.deeds a) :
    ∃ error, (m.save c.inst next).2 = .error error := by
  obtain ⟨n, t, -, -, -, o, es, turn, below, -, hsave⟩ := task_of_saving hd (.inr rfl)
  obtain ⟨hsaved, -⟩ | ⟨-, error, herror⟩ := hsave
  · cases hsaved
  · exact ⟨error, herror⟩

/-- **The store tells a position as soon as it has been saved.** -/
theorem load_of_saved {a : Act} (hd : (c, .saved next) ∈ m.deeds a) :
    (m.act a).store.backing.load c.inst = .ok (some next) := by
  obtain ⟨n, t, rfl, ht, hp, o, es, turn, below, hframes, hsaved⟩ :=
    task_of_saving hd (.inl rfl)
  obtain ⟨-, hsave⟩ | ⟨hunsaved, -⟩ := hsaved
  · have hmove : m.move t = .on (m.save c.inst next).1
        (t.doing (.driving o c (.acting ⟨es, turn⟩) :: below)) := by
      simp only [move_driving hp hframes, moveDriving, moveActing, perform, hsave]
      rfl
    rw [act_advance_on ht hmove]
    exact load_save_self hsave
  · cases hunsaved

/-- **An instance for which a position has been saved is on record from then on.** -/
theorem isOnRecord_of_mem_story (hsaved : .saved next ∈ e.story x as) :
    (e.after as).IsOnRecord x := by
  obtain ⟨⟨c, d⟩, hmem, rfl⟩ := List.mem_map.1 hsaved
  obtain ⟨hchronicle, hx⟩ := List.mem_filter.1 hmem
  rw [← beq_iff_eq.1 hx]
  clear hmem hsaved
  induction as using List.reverseRecOn with
  | nil => cases hchronicle
  | append_singleton as a ih =>
    rw [chronicle_concat, List.mem_append] at hchronicle
    rw [after_concat]
    obtain hbefore | hnow := hchronicle
    · exact (e.after as).files_act a _ (ih hbefore)
    · exact ⟨next, load_of_saved hnow⟩

/-- **A chain is torn down only by a step that may panic.** -/
theorem Sound.within_of_panicked {S : Standard} (h : m.Sound S) {a : Act}
    (hd : (c, .panicked) ∈ m.deeds a) :
    c ∈ m.chains ∧ ∃ i context p, c.definition.Within i c.context (.panic context p) := by
  obtain ⟨x, hfinishes⟩ := finishes_of_isLast hd rfl
  cases hfinishes with
  | @panic t o i context payload below ht hp hframes =>
    have hmem : .driving o c (.inside i (.panic context payload)) ∈ t.frames :=
      hframes ▸ List.mem_cons_self
    have hframe : Frame.Sound S (.driving o c (.inside i (.panic context payload))) :=
      (h.tasks t ht).frames _ hmem
    have hframes : .driving o c (.inside i (.panic context payload)) ∈ m.frames :=
      List.mem_flatMap.2 ⟨t, ht, hmem⟩
    exact ⟨List.mem_append_left _ (List.mem_filterMap.2 ⟨_, hframes, rfl⟩), i, context, payload,
      hframe.2⟩

end Engine

end DurableFlow
