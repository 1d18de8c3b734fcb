import DurableFlow.Event
import DurableFlow.Json.Slots
import DurableFlow.Time.Timestamp

/-!
# Written records

A position as it is kept outside of a store, and an event as it is delivered: both are records of
which the slots are decoded, and other fields are passed over.
-/

namespace DurableFlow

/-- The position of an instance, and when it was written. -/
structure Position where
  inst : String
  next : Nat
  updated : Timestamp

namespace Position

/-- Decodes a position; all its slots have to be there. -/
def decode (d : Document) : Option Position := do
  match ← d.slots ["instance_id", "next_step", "updated_at"] false with
  | [some inst, some next, some updated] =>
    return ⟨← inst.text?, ← next.natBelow? UInt64.size, ← Timestamp.parse? (← updated.text?)⟩
  | _ => none

/-- The position that a text is. -/
def read (s : String) : Option Position := (Document.read s).bind decode

/-- The position as it is written, with its time as universal time. -/
def toJson (p : Position) : Json :=
  Json.ofFields [("instance_id", .text p.inst), ("next_step", Json.ofNat p.next),
    ("updated_at", .text p.updated.text)]

end Position

/-- Decodes an event, whose payload may be left out. -/
def Event.decode (v : Json) : Option Event := do
  match ← (Document.ofJson v).slots ["name", "payload"] false with
  | [some name, none] => return { name := ← name.text? }
  | [some name, some payload] => return ⟨← name.text?, ← payload.value?⟩
  | _ => none

end DurableFlow
