import DurableFlow.Event
import DurableFlow.Json.Shape
import DurableFlow.Services
import DurableFlow.Table

/-!
# Contexts

A context is what the steps of one instance share: who they run for, the input, the output so far,
items under keys, an event that has been delivered and not yet taken, and services.
-/

namespace DurableFlow

/-- The data that the steps of an instance work on. -/
structure Context where
  inst : String
  workflow : String
  input : Json := .null
  output : Option Json := none
  items : Table String Json := .empty
  event : Option Event := none
  services : Services := .empty

namespace Context

/-- The item under a key. -/
def item? (c : Context) (key : String) : Option Json := c.items.get? key

/-- Whether the item under a key is the value `true`. -/
def flag (c : Context) (key : String) : Bool :=
  match c.item? key with
  | some (.bool true) => true
  | _ => false

def setInput (c : Context) (v : Json) : Context := { c with input := v }

def setOutput (c : Context) (v : Json) : Context := { c with output := some v }

/-- Removes the output. -/
def takeOutput (c : Context) : Context := { c with output := none }

def setItem (c : Context) (key : String) (v : Json) : Context :=
  { c with items := c.items.put key v }

def removeItem (c : Context) (key : String) : Context := { c with items := c.items.erase key }

/-- Delivers an event, in place of one that has not been taken. -/
def deliver (c : Context) (e : Event) : Context := { c with event := some e }

/-- The payload of the delivered event if it has that name, and the context without it then. -/
def takeEvent (c : Context) (name : String) : Option (Json × Context) :=
  match c.event with
  | some e => if e.name = name then some (e.payload, { c with event := none }) else none
  | none => none

/-- The input decoded into a shape and written back. -/
def inputAs (c : Context) (shape : Shape) : Except WorkflowError Json :=
  match shape.decode c.input with
  | some v => .ok v
  | none => .error (.decode "input" c.inst)

/-- The output, if there is one, decoded into a shape and written back. -/
def outputAs (c : Context) (shape : Shape) : Except WorkflowError (Option Json) :=
  match c.output with
  | none => .ok none
  | some v =>
    match shape.decode v with
    | some v => .ok (some v)
    | none => .error (.decode "output" c.inst)

/-- A taken event is gone. -/
theorem takeEvent_twice {c c' : Context} {name other : String} {v : Json}
    (h : c.takeEvent name = some (v, c')) : c'.takeEvent other = none := by
  unfold takeEvent at h
  split at h
  · split at h
    · obtain ⟨-, rfl⟩ := Prod.mk.injEq .. ▸ Option.some.injEq .. ▸ h
      rfl
    · simp at h
  · simp at h

end Context

end DurableFlow
