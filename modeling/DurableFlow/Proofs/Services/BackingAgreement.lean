import DurableFlow.Proofs.Positions.StoredPositions

/-!
# The accord of the backings

Positions are kept in memory or in a database, and the rows of a database may also be written from
outside. An access is what may happen to a backing; a history of accesses leaves for each instance
the position that was saved last, or the row that was written after it.

Main statement: both backings tell the position that was saved last, for every instance of which the
row was not written from outside since then (`Backing.accords`); a row that was is told instead, and
only by the database (`Backing.overwritten`).
-/

namespace DurableFlow

/-- What may happen to a backing. -/
inductive Access
  | save (inst : String) (next : Nat)
  | load (inst : String)
  /-- A row is written from outside, into a database. -/
  | write (inst : String) (row : Row)

/-- Whether an access puts a row under an instance; a position has to fit. -/
def Access.puts (x : String) : Access → Bool
  | .save inst next => inst = x ∧ next ≤ Database.largest
  | .load _ => false
  | .write inst _ => inst = x

namespace Backing

/-- The backing after an access; one that fails leaves it as it is. -/
def access (b : Backing) : Access → Backing
  | .save inst next => (b.save inst next).toOption.getD b
  | .load _ => b
  | .write inst row =>
    match b with
    | memory t => memory t
    | database db => database ((db.poke inst row).getD db)

/-- The backing after a history. -/
def after (b : Backing) (as : List Access) : Backing := as.foldl access b

/-- A backing in memory, with nothing in it. -/
def blank : Backing := memory .empty

/-- A database with an empty table. -/
def blankDatabase : Backing := database {}

variable {b : Backing} {as before later : List Access} {x y : String} {n : Nat}

theorem after_append (b : Backing) (as bs : List Access) :
    b.after (as ++ bs) = (b.after as).after bs :=
  List.foldl_append

theorem after_concat (b : Backing) (as : List Access) (a : Access) :
    b.after (as ++ [a]) = (b.after as).access a := by
  rw [after_append]
  rfl

/-! ## One access -/

theorem access_save_of_ok {b' : Backing} (h : b.save x n = .ok b') : b.access (.save x n) = b' := by
  simp [access, h, Except.toOption]

theorem access_save_of_error {e : StoreError} (h : b.save x n = .error e) :
    b.access (.save x n) = b := by
  simp [access, h, Except.toOption]

/-- A save touches the row of its instance only. -/
theorem load_access_save_of_ne (hne : y ≠ x) : (b.access (.save x n)).load y = b.load y := by
  cases hs : b.save x n with
  | ok b' =>
    rw [access_save_of_ok hs]
    exact load_save_of_ne hs hne
  | error e => rw [access_save_of_error hs]

/-- So does a row that is written. -/
theorem load_access_write_of_ne {row : Row} (hne : y ≠ x) :
    (b.access (.write x row)).load y = b.load y := by
  cases b with
  | memory t => rfl
  | database db =>
    by_cases ho : db.isOpen = true <;>
      simp [access, Database.poke, load, Database.load, ho, Table.get?_put_of_ne _ _ hne]

/-! ## In a database -/

/-- The backing is a database that can be reached. -/
def IsReachable (b : Backing) : Prop := ∃ db, b = database db ∧ db.isOpen = true

theorem isReachable_blankDatabase : blankDatabase.IsReachable := ⟨_, rfl, rfl⟩

/-- A position that fits is saved. -/
theorem IsReachable.save (h : b.IsReachable) (hn : n ≤ Database.largest) :
    ∃ b', b.save x n = .ok b' ∧ b'.IsReachable := by
  obtain ⟨db, rfl, hopen⟩ := h
  refine ⟨database { db with rows := db.rows.put x ⟨n, Database.savedAt⟩ }, ?_, _, rfl, hopen⟩
  simp [Backing.save, Database.save, hn, hopen, Except.map]

/-- A position that does not fit is refused. -/
theorem IsReachable.save_of_too_large (h : b.IsReachable) (hn : Database.largest < n) :
    b.save x n = .error (.corrupt x
      ("step index " ++ toString n ++ " does not fit in a database integer")) := by
  obtain ⟨db, rfl, -⟩ := h
  simp [Backing.save, Database.save, Nat.not_le.2 hn, Except.map]

theorem IsReachable.access (h : b.IsReachable) (a : Access) : (b.access a).IsReachable := by
  cases a with
  | save x n =>
    obtain hn | hn := Nat.lt_or_ge Database.largest n
    · rwa [access_save_of_error (h.save_of_too_large hn)]
    · obtain ⟨b', hb', hreachable⟩ := h.save (x := x) hn
      rwa [access_save_of_ok hb']
  | load x => exact h
  | write x row =>
    obtain ⟨db, rfl, hopen⟩ := h
    refine ⟨_, rfl, ?_⟩
    simp [Database.poke, hopen]

theorem IsReachable.after (h : b.IsReachable) (as : List Access) : (b.after as).IsReachable := by
  induction as generalizing b with
  | nil => exact h
  | cons a as ih => exact ih (h.access a)

/-- A row that is written from outside is what is told. -/
theorem IsReachable.load_write (h : b.IsReachable) (row : Row) :
    (b.access (.write x row)).load x = (Database.position x row).map some := by
  obtain ⟨db, rfl, hopen⟩ := h
  simp [Backing.access, Database.poke, Backing.load, Database.load, hopen]

/-- An access that puts nothing under an instance leaves the answer for it as it was. -/
theorem IsReachable.load_access (h : b.IsReachable) {a : Access} (ha : a.puts x = false) :
    (b.access a).load x = b.load x := by
  cases a with
  | save inst n =>
    by_cases hx : x = inst
    · have hn : Database.largest < n := by simpa [Access.puts, hx] using ha
      rw [access_save_of_error (h.save_of_too_large hn)]
    · exact load_access_save_of_ne hx
  | load inst => rfl
  | write inst row => exact load_access_write_of_ne (by simpa [Access.puts, eq_comm] using ha)

theorem IsReachable.load_after (h : b.IsReachable) (has : ∀ a ∈ as, a.puts x = false) :
    (b.after as).load x = b.load x := by
  induction as generalizing b with
  | nil => rfl
  | cons a as ih =>
    have hrest := ih (h.access a) fun a' ha' => has a' (List.mem_cons_of_mem _ ha')
    exact hrest.trans (h.load_access (has a List.mem_cons_self))

/-- The position that was put last is the one that a database tells. -/
theorem IsReachable.load_saved (h : b.IsReachable) (hn : n ≤ Database.largest)
    (hlater : ∀ a ∈ later, a.puts x = false) :
    (b.after (before ++ .save x n :: later)).load x = .ok (some n) := by
  obtain ⟨b', hb', hreachable⟩ := (h.after before).save (x := x) hn
  rw [after_append]
  show (((b.after before).access (.save x n)).after later).load x = _
  rw [access_save_of_ok hb', hreachable.load_after hlater]
  exact load_save_self hb'

/-- The row that was put last is the one that a database tells. -/
theorem IsReachable.load_written (h : b.IsReachable) (row : Row)
    (hlater : ∀ a ∈ later, a.puts x = false) :
    (b.after (before ++ .write x row :: later)).load x = (Database.position x row).map some := by
  rw [after_append]
  show (((b.after before).access (.write x row)).after later).load x = _
  rw [((h.after before).access _).load_after hlater]
  exact (h.after before).load_write row

/-! ## In memory -/

/-- A map in memory is left as it is unless something is saved, and saves cannot fail. -/
theorem access_memory (t : Table String Nat) (a : Access) :
    (memory t).access a = memory (match a with
      | .save x n => t.put x n
      | _ => t) := by
  cases a <;> rfl

theorem load_memory_after (t : Table String Nat) (has : ∀ n, .save x n ∉ as) :
    ((memory t).after as).load x = .ok (t.get? x) := by
  induction as generalizing t with
  | nil => rfl
  | cons a as ih =>
    show (((memory t).access a).after as).load x = _
    rw [access_memory, ih _ fun n hn => has n (List.mem_cons_of_mem _ hn)]
    cases a with
    | save y n =>
      have hne : x ≠ y := by
        rintro rfl
        exact has n List.mem_cons_self
      simp [Table.get?_put_of_ne _ _ hne]
    | load y => rfl
    | write y row => rfl

theorem exists_memory_after (t : Table String Nat) (as : List Access) :
    ∃ t', (memory t).after as = memory t' := by
  induction as generalizing t with
  | nil => exact ⟨t, rfl⟩
  | cons a as ih =>
    obtain ⟨t', ht'⟩ := ih (match a with
      | .save x n => t.put x n
      | _ => t)
    refine ⟨t', ?_⟩
    show ((memory t).access a).after as = _
    rw [access_memory, ht']

/-- The position that was saved last is the one that a map in memory tells. -/
theorem load_memory_saved (hlater : ∀ m, .save x m ∉ later) :
    (blank.after (before ++ .save x n :: later)).load x = .ok (some n) := by
  obtain ⟨t, ht⟩ := exists_memory_after .empty before
  have hblank : blank.after before = memory t := ht
  rw [after_append, hblank]
  show (((memory t).access (.save x n)).after later).load x = _
  rw [access_memory, load_memory_after _ hlater]
  simp

/-! ## Both -/

/-- A history puts nothing under an instance, or something was put under it last. -/
theorem exists_last_put (x : String) (as : List Access) : (∀ a ∈ as, a.puts x = false) ∨
    ∃ before a later, as = before ++ a :: later ∧ a.puts x = true ∧
      ∀ a' ∈ later, a'.puts x = false := by
  induction as with
  | nil => exact .inl (by simp)
  | cons a as ih =>
    obtain hnone | ⟨before, b, later, rfl, hb, hlater⟩ := ih
    · cases ha : a.puts x with
      | false => exact .inl (List.forall_mem_cons.2 ⟨ha, hnone⟩)
      | true => exact .inr ⟨[], a, as, rfl, ha, hnone⟩
    · exact .inr ⟨a :: before, b, later, rfl, hb, hlater⟩

/-- The row of an instance was not written from outside, or a position that fits has been saved for
it since. -/
def IsOwn (x : String) (as : List Access) : Prop :=
  ∀ before row later, as = before ++ .write x row :: later →
    ∃ n, .save x n ∈ later ∧ n ≤ Database.largest

/-- What a memory and a database tell of an instance after a history that both have gone through. -/
structure Accord (x : String) (as : List Access) : Prop where
  /-- They tell the same. -/
  same : (∀ n, .save x n ∈ as → n ≤ Database.largest) → IsOwn x as →
    (blankDatabase.after as).load x = (blank.after as).load x
  /-- The database tells the position that was saved last, unless a row was written since. -/
  last : ∀ before n later, as = before ++ .save x n :: later → n ≤ Database.largest →
    (∀ a ∈ later, a.puts x = false) → (blankDatabase.after as).load x = .ok (some n)
  /-- So does the memory, whatever is written. -/
  last_memory : ∀ before n later, as = before ++ .save x n :: later → (∀ m, .save x m ∉ later) →
    (blank.after as).load x = .ok (some n)
  /-- A row that was written since is told instead, if its date can be read. -/
  written : ∀ before row later, as = before ++ .write x row :: later →
    (∀ a ∈ later, a.puts x = false) → Database.isDate row.updated = true →
    (blankDatabase.after as).load x =
      if row.position < 0 then
        .error (.corrupt x ("negative step index " ++ toString row.position))
      else .ok (some row.position.toNat)
  /-- Nothing is told of an instance under which nothing was put. -/
  none : (∀ a ∈ as, a.puts x = false) → (blankDatabase.after as).load x = .ok none
  /-- A position that does not fit is refused by the database, which is left as it is. -/
  too_large : ∀ n, Database.largest < n →
    (blankDatabase.after as).save x n = .error (.corrupt x
      ("step index " ++ toString n ++ " does not fit in a database integer")) ∧
    blankDatabase.after (as ++ [.save x n]) = blankDatabase.after as
  /-- A position that fits is saved and told from then on, whatever stood there. -/
  repaired : ∀ n ≤ Database.largest, (∃ b, (blankDatabase.after as).save x n = .ok b) ∧
    (blankDatabase.after (as ++ [.save x n])).load x = .ok (some n)
  /-- What is saved or written for an instance does not matter to the others. -/
  others : ∀ y ≠ x, (∀ n, (blankDatabase.after (as ++ [.save x n])).load y =
      (blankDatabase.after as).load y ∧
      (blank.after (as ++ [.save x n])).load y = (blank.after as).load y) ∧
    ∀ row, (blankDatabase.after (as ++ [.write x row])).load y = (blankDatabase.after as).load y

/-- **The backings are in accord.** After every history of accesses both tell of an instance the
position that was saved last, as long as positions fit and no row of it was written since. The
database tells a row that was written from outside instead: its position, or that it is corrupt if
that is negative, until the next position is saved. A position that does not fit is refused and
changes nothing; and nobody but the instance is concerned. -/
theorem accords (as : List Access) (x : String) : Accord x as where
  same hfits hown := by
    obtain hnone | ⟨before, a, later, rfl, ha, hlater⟩ := exists_last_put x as
    · have hsaves : ∀ n, .save x n ∉ as := fun n hn => by
        simpa [Access.puts, hfits n hn] using hnone _ hn
      rw [isReachable_blankDatabase.load_after hnone, blank, load_memory_after _ hsaves]
      rfl
    · cases a with
      | save y n =>
        obtain ⟨rfl, hn⟩ : y = x ∧ n ≤ Database.largest := by simpa [Access.puts] using ha
        have hsaves : ∀ m, .save y m ∉ later := fun m hm => by
          have hmem : .save y m ∈ before ++ .save y n :: later :=
            List.mem_append_right _ (List.mem_cons_of_mem _ hm)
          simpa [Access.puts, hfits m hmem] using hlater _ hm
        rw [isReachable_blankDatabase.load_saved hn hlater, load_memory_saved hsaves]
      | load y => cases ha
      | write y row =>
        obtain rfl : y = x := by simpa [Access.puts] using ha
        obtain ⟨n, hmem, hn⟩ := hown before row later rfl
        simpa [Access.puts, hn] using hlater _ hmem
  last before n later has hn hlater := has ▸ isReachable_blankDatabase.load_saved hn hlater
  last_memory before n later has hlater := has ▸ load_memory_saved hlater
  written before row later has hlater hdate := by
    rw [has, isReachable_blankDatabase.load_written row hlater, Database.position, if_pos hdate]
    by_cases hrow : row.position < 0
    · rw [if_pos hrow, if_neg (by omega)]
      rfl
    · rw [if_neg hrow, if_pos (by omega)]
      rfl
  none hnone := isReachable_blankDatabase.load_after hnone
  too_large n hn := by
    have hrefused := (isReachable_blankDatabase.after as).save_of_too_large (x := x) hn
    exact ⟨hrefused, by rw [after_concat, access_save_of_error hrefused]⟩
  repaired n hn := by
    obtain ⟨b, hb, -⟩ := (isReachable_blankDatabase.after as).save (x := x) hn
    exact ⟨⟨b, hb⟩, isReachable_blankDatabase.load_saved hn (by simp)⟩
  others y hy := by
    refine ⟨fun n => ⟨?_, ?_⟩, fun row => ?_⟩ <;> rw [after_concat]
    · exact load_access_save_of_ne hy
    · exact load_access_save_of_ne hy
    · exact load_access_write_of_ne hy

/-- A position is saved, and then another row is written from outside. -/
def intrusion : List Access := [.save "a" 3, .write "a" ⟨5, Database.savedAt⟩]

/-- **What was written from outside is told** instead of the position that was saved last, and the
two backings do not tell the same. -/
theorem overwritten :
    (blankDatabase.after intrusion).load "a" = .ok (some 5) ∧
      (blank.after intrusion).load "a" = .ok (some 3) := by
  have hwritten : (blankDatabase.after intrusion).load "a" =
      (Database.position "a" ⟨5, Database.savedAt⟩).map some :=
    (isReachable_blankDatabase.access (.save "a" 3)).load_write _
  refine ⟨?_, rfl⟩
  rw [hwritten, Database.position, if_pos Database.isDate_savedAt]
  rfl

end Backing

end DurableFlow
