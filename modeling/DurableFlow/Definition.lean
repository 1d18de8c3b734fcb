import DurableFlow.Step

/-!
# Definitions

A definition is a name and a list of steps; a label that a step carries is looked up as the
position of that step. `Definition.make` refuses a blank name, an empty label and a label that is
carried twice; the first step that offends decides. A definition may also be drafted step by step
(`Draft`).
-/

namespace DurableFlow

/-- A workflow: its name and its steps. -/
structure Definition where
  name : String
  steps : List Step

namespace Definition

/-- How many steps there are. -/
def size (d : Definition) : Nat := d.steps.length

/-- The step at a position. -/
def step? (d : Definition) (i : Nat) : Option Step := d.steps[i]?

/-- The position of the step that carries the label. -/
def labelIndex? (d : Definition) (label : String) : Option Nat :=
  d.steps.findIdx? fun s => s.label == some label

/-- The labels with the positions of their steps, in order of position. -/
def labels (d : Definition) : List (String × Nat) :=
  d.steps.zipIdx.filterMap fun (s, i) => s.label.map fun l => (l, i)

/-- The index of the labels, as it grows step by step, `seen` being that of the steps before
position `i`; a label that is empty or was carried before ends it. -/
def index (workflow : String) (seen : Table String Nat) :
    (i : Nat) → List (Option String) → Except WorkflowError (Table String Nat)
  | _, [] => .ok seen
  | i, none :: rest => index workflow seen (i + 1) rest
  | i, some label :: rest =>
    if label = "" then .error (.emptyLabel workflow)
    else
      match seen.get? label with
      | some first => .error (.duplicateLabel workflow label first i)
      | none => index workflow (seen.put label i) (i + 1) rest

/-- The definition of that name with these steps. -/
def make (name : String) (steps : List Step) : Except WorkflowError Definition :=
  if isBlank name then .error .emptyName
  else
    match index name .empty 0 (steps.map Step.label) with
    | .error e => .error e
    | .ok _ => .ok ⟨name, steps⟩

theorem labelIndex?_lt {d : Definition} {label : String} {i : Nat}
    (h : d.labelIndex? label = some i) : i < d.size := by
  obtain ⟨hlt, -⟩ := List.findIdx?_eq_some_iff_getElem.1 h
  exact hlt

end Definition

/-- A definition that is put together step by step. -/
structure Draft where
  name : String
  steps : List Step := []

namespace Draft

/-- Appends a step. -/
def step (d : Draft) (s : Step) : Draft := { d with steps := d.steps ++ [s] }

/-- Appends a step under a label. -/
def label (d : Draft) (label : String) (s : Step) : Draft := d.step (s.named label)

/-- The definition that has been drafted. -/
def build (d : Draft) : Except WorkflowError Definition := Definition.make d.name d.steps

end Draft

end DurableFlow
