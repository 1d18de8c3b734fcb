import DurableFlow.Switchboard
import Mathlib.Data.List.Basic

/-!
# Histories of a switchboard

The annals of a switchboard are what has happened to it: subscriptions are made and end, notices are
published, handlers are called, receivers are told. While a notice is published, each handler that is
called may do whatever its holder may do, other than to publish (`Annals.publish`); the annals are
kept by the very function that calls the handlers.

Main statements: annals do not change what a switchboard does (`Annals.board_call`,
`Annals.board_publish`).
-/

namespace DurableFlow

/-- What happens to a switchboard. -/
inductive Happening
  /-- A subscription is made under a name. -/
  | made (name : String) (registration : Registration Listener)
  | ended (number : Nat)
  | published (notice : Notice)
  | called (registration : Registration Listener) (notice : Notice)
  /-- Somebody has asked how many handlers there are for a topic. -/
  | counted (topic : Topic) (count : Nat)
  | received (receiver : Nat) (notice : Notice)

namespace Happening

def made? : Happening → Option (Registration Listener)
  | made _ r => some r
  | _ => none

def ended? : Happening → Option Nat
  | ended n => some n
  | _ => none

def published? : Happening → Option Notice
  | published x => some x
  | _ => none

def called? : Happening → Option (Registration Listener × Notice)
  | called r x => some (r, x)
  | _ => none

/-- What a listener that records has heard. -/
def heard? : Happening → Option (String × Notice)
  | called ⟨_, _, .record name _⟩ x => some (name, x)
  | _ => none

/-- What a receiver was told. -/
def told? (receiver : Nat) : Happening → Option Notice
  | received m x => if m = receiver then some x else none
  | _ => none

/-- The subscriptions that were made and have not ended, in the order in which they were made. -/
def standing (T : List Happening) : List (Registration Listener) :=
  (T.filterMap made?).filter fun r => r.number ∉ T.filterMap ended?

/-- The subscriptions to a topic that were made and have not ended. -/
def standingFor (topic : Topic) (T : List Happening) : List (Registration Listener) :=
  (standing T).filter fun r => r.topic = topic

/-- The notices of the topic of a subscription that were published before it ended. -/
def due (r : Registration Listener) (later : List Happening) : List Notice :=
  ((later.takeWhile fun h => h.ended? ≠ some r.number).filterMap published?).filter fun x =>
    x.topic = r.topic

end Happening

/-- What may be done to a switchboard at any time, by its holder or by a handler. -/
inductive Errand
  | subscribe (name : String) (topic : Topic) (reaction : Option Reaction)
  | openChannel (name : String) (topic : Topic)
  /-- A subscription is ended, or its handle is dropped. -/
  | unsubscribe (name : String)
  /-- A handle is lost, so that its subscription never ends. -/
  | forget (name : String)
  | count (topic : Topic)
  | receive (name : String)
  | closeReceiver (name : String)

/-- What a listener does about a notice, once it has heard it. -/
def Listener.errands (topic : Topic) : Listener → List Errand
  | .record _ (some reaction) =>
    (reaction.unsubscribe.map .unsubscribe).toList ++
      (reaction.subscribe.map (.subscribe · topic none)).toList
  | _ => []

namespace Switchboard

/-- A listener hears a notice. -/
def hear (r : Registration Listener) (notice : Notice) (s : Switchboard) : Switchboard :=
  match r.handler with
  | .channel receiver =>
    match s.queues.get? receiver with
    | some queue => { s with queues := s.queues.put receiver (queue ++ [notice]) }
    | none => s
  | .record name _ => { s with heard := s.heard ++ [(name, notice)] }

/-- The end of the subscription of a name, if it has one. -/
def endings (s : Switchboard) (name : String) : List Happening :=
  ((s.subscriptions.get? name).map .ended).toList

end Switchboard

/-- A switchboard, and what has happened to it. -/
structure Annals where
  board : Switchboard := {}
  happened : List Happening := []

namespace Annals

/-- An errand is run; who has let the bus go can make no use of it any more. -/
def errand (a : Annals) : Errand → Annals
  | .subscribe name topic reaction =>
    if a.board.isHeld then
      { board := a.board.subscribe name topic reaction
        happened := a.happened ++
          .made name ⟨a.board.bus.next, topic, .record name reaction⟩ :: a.board.endings name }
    else a
  | .openChannel name topic =>
    if a.board.isHeld then
      { board := a.board.openChannel name topic
        happened := a.happened ++
          .made name ⟨a.board.bus.next, topic, .channel a.board.nextReceiver⟩ ::
            a.board.endings name }
    else a
  | .unsubscribe name =>
    { board := a.board.unsubscribe name
      happened := a.happened ++ a.board.endings name }
  | .forget name => { a with board := a.board.forget name }
  | .count topic =>
    if a.board.isHeld then
      { a with happened := a.happened ++ [.counted topic (a.board.bus.count topic)] }
    else a
  | .receive name =>
    match a.board.receivers.get? name, a.board.receive name with
    | some m, (.notice x, s) => { board := s, happened := a.happened ++ [.received m x] }
    | _, (_, s) => { a with board := s }
  | .closeReceiver name => { a with board := a.board.closeReceiver name }

/-- A handler is called: it hears the notice, reacts, and does what else it does, by its number. -/
def call (amid : Nat → List Errand) (r : Registration Listener) (notice : Notice) (a : Annals) :
    Annals :=
  (r.handler.errands notice.topic ++ amid r.number).foldl errand
    { board := a.board.hear r notice, happened := a.happened ++ [.called r notice] }

/-- A notice is published, and the handlers do what they do. -/
def publish (a : Annals) (notice : Notice) (amid : Nat → List Errand) : Annals :=
  if a.board.isHeld then
    a.board.bus.publish (call amid) notice
      { a with happened := a.happened ++ [.published notice] }
  else a

end Annals

/-- What its holder does to a switchboard. -/
inductive Dealing
  | errand (e : Errand)
  /-- A notice is published, and each handler does something meanwhile, by its number. -/
  | publish (notice : Notice) (amid : Nat → List Errand)
  | dropBus

namespace Annals

def deal (a : Annals) : Dealing → Annals
  | .errand e => a.errand e
  | .publish notice amid => a.publish notice amid
  | .dropBus => { a with board := a.board.dropBus }

/-- The annals of a history. -/
def of (ds : List Dealing) : Annals := ds.foldl deal {}

/-! ## Annals and what a switchboard does -/

variable {a : Annals} {s : Switchboard}

theorem isHeld_release (s : Switchboard) : s.release.isHeld = s.isHeld := by
  unfold Switchboard.release
  split <;> rfl

theorem isHeld_register (s : Switchboard) (name : String) (topic : Topic) (l : Listener) :
    (s.register name topic l).isHeld = s.isHeld := by
  simp only [Switchboard.register]
  split
  · exact isHeld_release _
  · rfl

theorem isHeld_unsubscribe (s : Switchboard) (name : String) :
    (s.unsubscribe name).isHeld = s.isHeld := by
  simp only [Switchboard.unsubscribe]
  split
  · exact isHeld_release _
  · rfl

theorem isHeld_receive (s : Switchboard) (name : String) :
    (s.receive name).2.isHeld = s.isHeld := by
  simp only [Switchboard.receive]
  split
  · rfl
  · split
    · rfl
    · split <;> rfl

theorem isHeld_hear (r : Registration Listener) (x : Notice) (s : Switchboard) :
    (s.hear r x).isHeld = s.isHeld := by
  simp only [Switchboard.hear]
  split
  · split <;> rfl
  · rfl

/-- No errand lets the bus go. -/
theorem isHeld_errand (a : Annals) (e : Errand) : (a.errand e).board.isHeld = a.board.isHeld := by
  cases e with
  | subscribe name topic reaction =>
    simp only [errand]
    split
    · exact isHeld_register _ _ _ _
    · rfl
  | openChannel name topic =>
    simp only [errand]
    split
    · exact isHeld_register _ _ _ _
    · rfl
  | unsubscribe name => exact isHeld_unsubscribe _ _
  | forget name => rfl
  | count topic =>
    simp only [errand]
    split <;> rfl
  | receive name =>
    have hreceive := isHeld_receive a.board name
    simp only [errand]
    split <;> simp_all
  | closeReceiver name =>
    simp only [errand, Switchboard.closeReceiver]
    split <;> rfl

theorem isHeld_errands (a : Annals) (es : List Errand) :
    (es.foldl errand a).board.isHeld = a.board.isHeld := by
  induction es generalizing a with
  | nil => rfl
  | cons e es ih => exact (ih _).trans (isHeld_errand a e)

theorem isHeld_call (amid : Nat → List Errand) (r : Registration Listener) (x : Notice)
    (a : Annals) : (call amid r x a).board.isHeld = a.board.isHeld :=
  (isHeld_errands _ _).trans (isHeld_hear r x a.board)

/-- **A handler that does nothing else does what it does.** -/
theorem board_call (h : a.board.isHeld = true) (r : Registration Listener) (x : Notice) :
    (call (fun _ => []) r x a).board = a.board.call r x := by
  obtain ⟨number, topic, l⟩ := r
  cases l with
  | channel m => rfl
  | record name reaction =>
    cases reaction with
    | none => rfl
    | some reaction =>
      obtain ⟨u, v⟩ := reaction
      cases u <;> cases v <;>
        simp [call, Listener.errands, errand, Switchboard.hear, Switchboard.call, h,
          isHeld_unsubscribe]

/-- **Annals do not change what is published**, nor to whom. -/
theorem board_publish (h : a.board.isHeld = true) (x : Notice) :
    (a.publish x fun _ => []).board = a.board.publish x := by
  have hfold : ∀ (rs : List (Registration Listener)) (a : Annals), a.board.isHeld = true →
      (rs.foldl (fun a r => call (fun _ => []) r x a) a).board =
        rs.foldl (fun s r => s.call r x) a.board := by
    intro rs
    induction rs with
    | nil => exact fun _ _ => rfl
    | cons r rs ih =>
      intro a ha
      rw [List.foldl_cons, List.foldl_cons, ← board_call ha]
      exact ih _ ((isHeld_call _ r x a).trans ha)
  simp only [publish, h, if_true, Bus.publish, Switchboard.publish]
  exact hfold _ _ h

end Annals

end DurableFlow
