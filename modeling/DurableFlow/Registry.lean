import DurableFlow.Definition

/-!
# Registries

A registry finds definitions by name. It is built from entries in two passes: first every name is
looked at, then the factories run in order, and each has to define the name that it is registered
under. The first error of the first pass that has one decides.
-/

namespace DurableFlow

/-- A name and the factory that is to define it. -/
structure Entry where
  name : String
  factory : Services → Except WorkflowError Definition

/-- An entry for a definition that is there already. -/
def Entry.ofDefinition (d : Definition) : Entry := ⟨d.name, fun _ => .ok d⟩

/-- Definitions under their names. -/
structure Registry where
  definitions : Table String Definition

namespace Registry

/-- The definition of that name. -/
def find? (r : Registry) (name : String) : Option Definition := r.definitions.get? name

/-- Whether there is a definition of that name. -/
def contains (r : Registry) (name : String) : Bool := r.definitions.contains name

/-- How many definitions there are. -/
def size (r : Registry) : Nat := r.definitions.size

/-- The names in their order. -/
def names (r : Registry) : List String := r.definitions.keys.mergeSort (· ≤ ·)

/-- The first blank or repeated name, `seen` being those before it. -/
def nameFault (seen : List String) : List String → Option Fault
  | [] => none
  | name :: rest =>
    if isBlank name then some (.definition .emptyName)
    else if seen.contains name then some (.duplicateWorkflow name)
    else nameFault (name :: seen) rest

/-- What an entry's factory defines. -/
def defineEntry (services : Services) (e : Entry) : Except Fault Definition :=
  match e.factory services with
  | .error w => .error (.definition w)
  | .ok d => if d.name = e.name then .ok d else .error (.nameMismatch e.name d.name)

/-- Runs the factories in order up to the first that goes wrong; also tells which ones ran. -/
def define (services : Services) : List Entry → Table String Definition →
    List String × Except Fault (Table String Definition)
  | [], t => ([], .ok t)
  | e :: rest, t =>
    match defineEntry services e with
    | .error f => ([e.name], .error f)
    | .ok d =>
      let (ran, result) := define services rest (t.put e.name d)
      (e.name :: ran, result)

/-- Builds the registry of the entries; also tells whose factories ran. -/
def build (services : Services) (entries : List Entry) : List String × Except Fault Registry :=
  match nameFault [] (entries.map Entry.name) with
  | some f => ([], .error f)
  | none =>
    let (ran, result) := define services entries .empty
    (ran, result.map Registry.mk)

end Registry

end DurableFlow
