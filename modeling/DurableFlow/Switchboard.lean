import DurableFlow.Bus
import DurableFlow.Table

/-!
# Switchboards

A switchboard holds the subscriptions to one bus under names of the caller's choice. A subscription
records what it hears, and may react by ending and making others, or it queues what it hears for a
receiver. A subscription that is dropped ends; one that is forgotten goes on without a name.

The bus lives as long as the switchboard holds it or a registered handler with a reaction does.
-/

namespace DurableFlow

/-- What a handler does to the subscriptions: it ends one and then makes one. -/
structure Reaction where
  unsubscribe : Option String := none
  subscribe : Option String := none

/-- The handlers of a switchboard. -/
inductive Listener
  /-- Records notices under a name, and then reacts. -/
  | record (name : String) (reaction : Option Reaction)
  /-- Queues notices for the receiver of that number. -/
  | channel (receiver : Nat)

/-- What a receiver finds. -/
inductive Reception
  | notice (n : Notice)
  | empty
  | disconnected
  | noChannel

/-- The subscriptions to a bus, and what has been heard. -/
structure Switchboard where
  bus : Bus Listener := {}
  /-- Whether the bus is still held by the switchboard itself. -/
  isHeld : Bool := true
  /-- The numbers of the registrations. -/
  subscriptions : Table String Nat := .empty
  /-- The numbers of the receivers. -/
  receivers : Table String Nat := .empty
  /-- What is queued for each receiver that can still be reached. -/
  queues : Table Nat (List Notice) := .empty
  nextReceiver : Nat := 0
  heard : List (String × Notice) := []

namespace Switchboard

/-- Whether a registered handler keeps the bus alive. -/
def keepsBus : Registration Listener → Bool
  | ⟨_, _, .record _ (some _)⟩ => true
  | _ => false

/-- Lets the bus go, with all its handlers, once nothing holds it. -/
def release (s : Switchboard) : Switchboard :=
  if s.isHeld || s.bus.registrations.any keepsBus then s
  else { s with bus := { s.bus with registrations := [] } }

/-- Ends the subscription of a registration. -/
def endRegistration (s : Switchboard) (number : Nat) : Switchboard :=
  release { s with bus := s.bus.unsubscribe number }

/-- Ends the subscription of that name. -/
def unsubscribe (s : Switchboard) (name : String) : Switchboard :=
  match s.subscriptions.get? name with
  | some number => endRegistration { s with subscriptions := s.subscriptions.erase name } number
  | none => s

/-- Registers a listener under a name; a subscription that had the name ends afterwards. -/
def register (s : Switchboard) (name : String) (topic : Topic) (l : Listener) : Switchboard :=
  let (bus, number) := s.bus.subscribe topic l
  let old := s.subscriptions.get? name
  let s := { s with bus, subscriptions := s.subscriptions.put name number }
  match old with
  | some n => s.endRegistration n
  | none => s

/-- Subscribes a handler that records. -/
def subscribe (s : Switchboard) (name : String) (topic : Topic)
    (reaction : Option Reaction := none) : Switchboard :=
  s.register name topic (.record name reaction)

/-- Subscribes a queue and keeps its receiver under the same name. -/
def openChannel (s : Switchboard) (name : String) (topic : Topic) : Switchboard :=
  let receiver := s.nextReceiver
  let queues := match s.receivers.get? name with
    | some old => s.queues.erase old
    | none => s.queues
  let s := { s with
    nextReceiver := receiver + 1
    queues := queues.put receiver []
    receivers := s.receivers.put name receiver }
  s.register name topic (.channel receiver)

/-- What a handler does about a notice. -/
def call (r : Registration Listener) (notice : Notice) (s : Switchboard) : Switchboard :=
  match r.handler with
  | .channel receiver =>
    match s.queues.get? receiver with
    | some queue => { s with queues := s.queues.put receiver (queue ++ [notice]) }
    | none => s
  | .record name reaction =>
    let s := { s with heard := s.heard ++ [(name, notice)] }
    match reaction with
    | none => s
    | some reaction =>
      let s := match reaction.unsubscribe with
        | some other => s.unsubscribe other
        | none => s
      match reaction.subscribe with
      | some other => s.subscribe other notice.topic
      | none => s

/-- Publishes a notice. -/
def publish (s : Switchboard) (notice : Notice) : Switchboard := s.bus.publish call notice s

/-- Leaves the subscription of that name registered for good. -/
def forget (s : Switchboard) (name : String) : Switchboard :=
  { s with subscriptions := s.subscriptions.erase name }

/-- Whether a registered handler queues for a receiver. -/
def feeds (receiver : Nat) : Registration Listener → Bool
  | ⟨_, _, .channel n⟩ => n == receiver
  | _ => false

/-- Takes the next notice of the receiver of that name. -/
def receive (s : Switchboard) (name : String) : Reception × Switchboard :=
  match s.receivers.get? name with
  | none => (.noChannel, s)
  | some receiver =>
    match (s.queues.get? receiver).getD [] with
    | notice :: rest => (.notice notice, { s with queues := s.queues.put receiver rest })
    | [] => if s.bus.registrations.any (feeds receiver) then (.empty, s) else (.disconnected, s)

/-- Closes the receiver of that name. -/
def closeReceiver (s : Switchboard) (name : String) : Switchboard :=
  match s.receivers.get? name with
  | some receiver =>
    { s with receivers := s.receivers.erase name, queues := s.queues.erase receiver }
  | none => s

/-- Lets the bus go. -/
def dropBus (s : Switchboard) : Switchboard := release { s with isHeld := false }

end Switchboard

end DurableFlow
