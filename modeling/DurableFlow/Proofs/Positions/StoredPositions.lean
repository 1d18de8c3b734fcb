import DurableFlow.Engine.Effects
import Mathlib.Data.Option.Basic

/-!
# Stored positions

`Engine.position` is the position at which an instance continues: the one that the store holds for
it, or nothing. Main statements: a load that succeeds tells it (`position_of_load`), a save that
succeeds sets it for its instance and for no other (`position_save_of_ok`), a save that fails leaves
it as it was (`position_save_of_error`).
-/

namespace DurableFlow

namespace Database

theorem isDate_savedAt : isDate savedAt = true := by decide +kernel

theorem load_save_self {db db' : Database} {inst : String} {next : Nat}
    (h : db.save inst next = .ok db') : db'.load inst = .ok (some next) := by
  unfold save at h
  split at h
  · split at h
    · rename_i hopen
      cases h
      simp [load, position, isDate_savedAt, hopen, Except.map]
    · cases h
  · cases h

end Database

namespace Backing

theorem save_database {db : Database} {b : Backing} {inst : String} {next : Nat}
    (h : (database db).save inst next = .ok b) :
    ∃ db', db.save inst next = .ok db' ∧ b = database db' := by
  cases hs : db.save inst next with
  | error e => simp [save, hs, Except.map] at h
  | ok db' =>
    refine ⟨db', rfl, ?_⟩
    simpa [save, hs, Except.map] using h.symm

theorem load_save_self {b b' : Backing} {inst : String} {next : Nat}
    (h : b.save inst next = .ok b') : b'.load inst = .ok (some next) := by
  cases b with
  | memory t =>
    cases h
    simp [load]
  | database db =>
    obtain ⟨db', hdb, rfl⟩ := save_database h
    exact Database.load_save_self hdb

theorem load_save_of_ne {b b' : Backing} {inst other : String} {next : Nat}
    (h : b.save inst next = .ok b') (hne : other ≠ inst) : b'.load other = b.load other := by
  cases b with
  | memory t =>
    cases h
    simp [load, Table.get?_put_of_ne _ _ hne]
  | database db =>
    obtain ⟨db', hdb, rfl⟩ := save_database h
    exact Database.load_save_of_ne hdb hne

end Backing

namespace Store

/-- A save either writes the position to the backing, or leaves the backing as it was. -/
theorem save_cases (s : Store) (inst : String) (next : Nat) :
    (∃ b, s.backing.save inst next = .ok b ∧ (s.save inst next).1.backing = b ∧
        (s.save inst next).2 = .ok ()) ∨
      ∃ e, (s.save inst next).1.backing = s.backing ∧ (s.save inst next).2 = .error e := by
  unfold save
  split
  · exact .inr ⟨_, rfl, rfl⟩
  · cases h : s.backing.save inst next with
    | ok b => exact .inl ⟨b, rfl, rfl, rfl⟩
    | error e => exact .inr ⟨e, rfl, rfl⟩

theorem load_backing (s : Store) (inst : String) : (s.load inst).1.backing = s.backing := by
  unfold load
  split <;> rfl

theorem load_of_ok {s : Store} {inst : String} {p : Option Nat} (h : (s.load inst).2 = .ok p) :
    s.backing.load inst = .ok p := by
  unfold load at h
  split at h
  · cases h
  · exact h

end Store

namespace Engine

/-- The position at which an instance continues: nothing, if none is stored. -/
def position (e : Engine) (inst : String) : Nat := (e.store.position? inst).getD 0

theorem position_congr {e e' : Engine} (h : e'.store.backing = e.store.backing) :
    e'.position = e.position := by
  funext inst
  simp only [position, Store.position?, h]

theorem position_load (e : Engine) (inst : String) : (e.load inst).1.position = e.position :=
  position_congr (Store.load_backing e.store inst)

theorem position_of_load {e : Engine} {inst : String} {p : Option Nat}
    (h : (e.load inst).2 = .ok p) : e.position inst = p.getD 0 := by
  have hp : e.store.backing.load inst = .ok p := Store.load_of_ok h
  simp only [position, Store.position?, hp]

theorem position_save_of_ok {e : Engine} {inst : String} {next : Nat}
    (h : (e.save inst next).2 = .ok ()) :
    (e.save inst next).1.position = Function.update e.position inst next := by
  obtain ⟨b, hb, hs, -⟩ | ⟨err, -, herr⟩ := Store.save_cases e.store inst next
  · have hstore : (e.save inst next).1.store.backing = b := hs
    funext other
    by_cases ho : other = inst
    · subst ho
      simp [position, Store.position?, hstore, Backing.load_save_self hb]
    · simp [position, Store.position?, hstore, Backing.load_save_of_ne hb ho, ho]
  · exact absurd (herr.symm.trans h) (by simp)

theorem position_save_of_error {e : Engine} {inst : String} {next : Nat} {err : StoreError}
    (h : (e.save inst next).2 = .error err) : (e.save inst next).1.position = e.position := by
  obtain ⟨b, -, -, hok⟩ | ⟨err', hs, -⟩ := Store.save_cases e.store inst next
  · exact absurd (hok.symm.trans h) (by simp)
  · exact position_congr hs

end Engine

end DurableFlow
