import DurableFlow.Error
import DurableFlow.Table
import DurableFlow.Time.Timestamp

/-!
# Database store

Positions in a database table: one row per instance, keys compared exactly, positions as signed
64-bit integers beside the text of a date. How a database is reached at an address is a parameter
(`Databases`), with the law that what is connected to is open (`Databases.AreOpen`). Main
statements: a position that does not fit changes nothing (`save_of_too_large`), and a saved one
touches no other row (`load_save_of_ne`).
-/

namespace DurableFlow

/-- A row of the table. -/
structure Row where
  position : Int
  updated : String

/-- The table, and whether it can be reached. -/
structure Database where
  rows : Table String Row := .empty
  isOpen : Bool := true

namespace Database

/-- The largest position that a row holds. -/
def largest : Nat := UInt64.size / 2 - 1

/-- A date as rows are saved with. -/
def savedAt : String := "2025-07-01T00:00:00Z"

/-- The text of a date with seconds put behind hours and minutes. -/
def withSeconds (s : String) : String :=
  String.ofList (s.toList.take 16) ++ ":00" ++ String.ofList (s.toList.drop 16)

/-- Whether the text of a date can be read; it may lack the seconds, and without an offset it is in
universal time. -/
def isDate (s : String) : Bool :=
  [s, withSeconds s].any fun s =>
    (Timestamp.parse? s).isSome || (Timestamp.parse? (s ++ "Z")).isSome

/-- Puts the row of an instance, or replaces it. -/
def save (db : Database) (inst : String) (next : Nat) : Except StoreError Database :=
  if next ≤ largest then
    if db.isOpen then .ok { db with rows := db.rows.put inst ⟨next, savedAt⟩ } else .error .database
  else
    .error (.corrupt inst ("step index " ++ toString next ++ " does not fit in a database integer"))

/-- The position of an instance that a row tells. -/
def position (inst : String) (row : Row) : Except StoreError Nat :=
  if isDate row.updated then
    if 0 ≤ row.position then .ok row.position.toNat
    else .error (.corrupt inst ("negative step index " ++ toString row.position))
  else .error .database

/-- The position of an instance. -/
def load (db : Database) (inst : String) : Except StoreError (Option Nat) :=
  if db.isOpen then
    match db.rows.get? inst with
    | some row => (position inst row).map some
    | none => .ok none
  else .error .database

/-- Writes a row from outside. -/
def poke (db : Database) (inst : String) (row : Row) : Option Database :=
  if db.isOpen then some { db with rows := db.rows.put inst row } else none

/-- How many rows there are. -/
def count (db : Database) : Except StoreError Nat :=
  if db.isOpen then .ok db.rows.size else .error .database

/-- Makes sure that the table is there, which it is. -/
def migrate (db : Database) : Except StoreError Unit :=
  if db.isOpen then .ok () else .error .migrate

/-- Closes the database. -/
def close (db : Database) : Database := { db with isOpen := false }

theorem save_of_too_large {db : Database} {inst : String} {next : Nat} (h : largest < next) :
    ∃ e, db.save inst next = .error e := by
  simp [save, Nat.not_le.2 h]

theorem load_save_of_ne {db db' : Database} {inst other : String} {next : Nat}
    (h : db.save inst next = .ok db') (hne : other ≠ inst) : db'.load other = db.load other := by
  unfold save at h
  split at h
  · split at h
    · cases h
      simp [load, Table.get?_put_of_ne _ _ hne]
    · cases h
  · cases h

end Database

/-! ## Databases -/

/-- How databases are reached. -/
structure Databases where
  /-- Connects to the database at an address, with so many connections at most; a database that is
  not there is made. -/
  connect : (address : String) → (connections : UInt32) → Option Database

namespace Databases

/-- What is connected to is open. -/
def AreOpen (ds : Databases) : Prop :=
  ∀ address connections db, ds.connect address connections = some db → db.isOpen = true

/-- Opens the database at an address, with one connection at least, and makes sure of its table. -/
def reach (ds : Databases) (address : String) (connections : UInt32) :
    Except StoreError Database :=
  match ds.connect address (if connections = 0 then 1 else connections) with
  | some db => db.migrate.map fun _ => db
  | none => .error .database

end Databases

end DurableFlow
