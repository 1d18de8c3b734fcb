/-!
# Services

A service is a value that steps find by its kind: at most one value of each kind, and a value put
in replaces the one before it. The view is `Services.get?`.
-/

namespace DurableFlow

/-- Where log lines go: to a named record, to a named list of lines, or nowhere. -/
inductive Sink
  | tagged (tag : String)
  | memory (name : String)
  | silent
  deriving DecidableEq, Repr

/-- A reference to a runner, which does not keep it alive. -/
structure RunnerId where
  number : Nat
  deriving DecidableEq, Repr

/-- The kinds of values that services are found by. -/
inductive Service
  | word32
  | word64
  | text
  | flag
  | sink
  | runner
  deriving DecidableEq, Repr

/-- The values of a kind. -/
abbrev Service.Value : Service → Type
  | word32 => UInt32
  | word64 => UInt64
  | text => String
  | flag => Bool
  | sink => Sink
  | runner => RunnerId

/-- A value for some of the kinds. -/
structure Services where
  entries : List ((s : Service) × s.Value)

namespace Services

/-- No services. -/
def empty : Services := ⟨[]⟩

instance : Inhabited Services := ⟨empty⟩

/-- The value of a kind in a list of entries; the first decides. -/
def find (s : Service) : List ((s : Service) × s.Value) → Option s.Value
  | [] => none
  | ⟨t, v⟩ :: rest => if h : t = s then some (h ▸ v) else find s rest

/-- The service of a kind. -/
def get? (services : Services) (s : Service) : Option s.Value := find s services.entries

/-- Whether there is a service of a kind. -/
def contains (services : Services) (s : Service) : Bool := (services.get? s).isSome

/-- Puts a service in, in place of one of the same kind. -/
def insert (services : Services) (s : Service) (v : s.Value) : Services :=
  ⟨⟨s, v⟩ :: services.entries.filter fun e => decide (e.1 ≠ s)⟩

/-- How many services there are. -/
def size (services : Services) : Nat := services.entries.length

@[simp] theorem get?_empty (s : Service) : empty.get? s = none := rfl

@[simp] theorem get?_insert_self (services : Services) (s : Service) (v : s.Value) :
    (services.insert s v).get? s = some v := by
  simp [get?, insert, find]

theorem get?_insert_of_ne (services : Services) {s t : Service} (v : s.Value) (h : s ≠ t) :
    (services.insert s v).get? t = services.get? t := by
  obtain ⟨entries⟩ := services
  simp only [get?, insert, find, h, dite_false]
  induction entries with
  | nil => rfl
  | cons e rest ih =>
    obtain ⟨u, w⟩ := e
    rw [List.filter_cons]
    split
    · simp only [find, ih]
    · rename_i hu
      have hu : u = s := by simpa using hu
      have : u ≠ t := hu ▸ h
      simp only [find, this, dite_false, ih]

end Services

end DurableFlow
