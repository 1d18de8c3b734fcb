import DurableFlow.Store.Database

/-!
# Stores

A store remembers the position at which every instance continues. It keeps them in memory or in a
database, and counts its calls. Any of them may fail, by its number, and then nothing is changed
(`save_of_failsSave`).
-/

namespace DurableFlow

/-- Where positions are kept. -/
inductive Backing
  | memory (positions : Table String Nat)
  | database (db : Database)

namespace Backing

def save : Backing → String → Nat → Except StoreError Backing
  | memory t, inst, next => .ok (memory (t.put inst next))
  | database db, inst, next => (db.save inst next).map database

def load : Backing → String → Except StoreError (Option Nat)
  | memory t, inst => .ok (t.get? inst)
  | database db, inst => db.load inst

end Backing

/-- A backing, its calls so far, and which calls fail, by their numbers from one. -/
structure Store where
  backing : Backing := .memory .empty
  saves : Nat := 0
  loads : Nat := 0
  failsSaveAt : Nat → Bool := fun _ => false
  failsLoadAt : Nat → Bool := fun _ => false

namespace Store

instance : Inhabited Store := ⟨{}⟩

/-- Whether the next save is one of those that fail. -/
def failsSave (s : Store) : Bool := s.failsSaveAt (s.saves + 1)

/-- Whether the next load is one of those that fail. -/
def failsLoad (s : Store) : Bool := s.failsLoadAt (s.loads + 1)

/-- Saves the position of an instance. -/
def save (s : Store) (inst : String) (next : Nat) : Store × Except StoreError Unit :=
  let counted := { s with saves := s.saves + 1 }
  if s.failsSave then
    (counted, .error (.corrupt inst ("injected save failure " ++ toString (s.saves + 1))))
  else
    match s.backing.save inst next with
    | .ok b => ({ counted with backing := b }, .ok ())
    | .error e => (counted, .error e)

/-- Loads the position of an instance. -/
def load (s : Store) (inst : String) : Store × Except StoreError (Option Nat) :=
  let counted := { s with loads := s.loads + 1 }
  if s.failsLoad then
    (counted, .error (.corrupt inst ("injected load failure " ++ toString (s.loads + 1))))
  else (counted, s.backing.load inst)

theorem save_of_failsSave {s : Store} (inst : String) (next : Nat) (h : s.failsSave) :
    (s.save inst next).1.backing = s.backing := by
  simp [save, h]

/-- The position that the store holds for an instance. -/
def position? (s : Store) (inst : String) : Option Nat :=
  match s.backing.load inst with
  | .ok p => p
  | .error _ => none

end Store

end DurableFlow
