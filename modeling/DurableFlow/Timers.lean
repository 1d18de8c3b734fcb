import DurableFlow.Error
import DurableFlow.Time.Instant
import DurableFlow.Token

/-!
# Timers

Timers are armed at instants and go off as a clock passes them. The clock counts whole
milliseconds, and a timer's deadline is the first tick at or after its instant, so that no timer
goes off early: main statement, `le_deadline`.
-/

namespace DurableFlow

/-- Work that waits for a deadline, unless its token is cancelled before. -/
structure Timer (α : Type) where
  deadline : Nat
  token : Token
  work : α

/-- A clock in milliseconds and the timers that are armed, in the order in which they go off. -/
structure Timers (α : Type) where
  /-- The instant at which the clock stood at nothing. -/
  start : Instant
  clock : Nat := 0
  armed : List (Timer α) := []

namespace Timers

variable {α : Type}

/-- The instant that the clock shows. -/
def now (t : Timers α) : Instant := ⟨t.start.nanos + t.clock * 1000000⟩

/-- The first tick of the clock that is not before an instant, and not in the past. -/
def deadline (t : Timers α) (due : Instant) : Nat :=
  t.clock + (t.now.waitFrom due + 999999) / 1000000

/-- A timer among others, behind those that go off no later. -/
def place (x : Timer α) : List (Timer α) → List (Timer α)
  | [] => [x]
  | y :: ys => if y.deadline ≤ x.deadline then y :: place x ys else x :: y :: ys

/-- Arms a timer. -/
def arm (t : Timers α) (due : Instant) (token : Token) (work : α) : Timers α :=
  { t with armed := place ⟨t.deadline due, token, work⟩ t.armed }

/-- Removes the timers whose tokens are cancelled. -/
def prune (t : Timers α) (cancelled : List Token) : Timers α :=
  { t with armed := t.armed.filter fun x => !x.token.isCancelled cancelled }

/-- The timer that goes off next if it does so by `limit`, the clock then being at its deadline. -/
def pop? (t : Timers α) (limit : Nat) : Option (Timer α × Timers α) :=
  match t.armed with
  | [] => none
  | x :: rest =>
    if x.deadline ≤ limit then some (x, { t with clock := max t.clock x.deadline, armed := rest })
    else none

/-- Moves the clock on, but never back. -/
def moveTo (t : Timers α) (clock : Nat) : Timers α := { t with clock := max t.clock clock }

theorem le_deadline (t : Timers α) (due : Instant) :
    due.nanos ≤ t.start.nanos + t.deadline due * 1000000 := by
  simp only [deadline, Instant.waitFrom, now]
  omega

theorem clock_le_deadline (t : Timers α) (due : Instant) : t.clock ≤ t.deadline due :=
  Nat.le_add_right _ _

theorem mem_place {x y : Timer α} {xs : List (Timer α)} : y ∈ place x xs ↔ y = x ∨ y ∈ xs := by
  induction xs with
  | nil => simp [place]
  | cons z zs ih =>
    rw [place]
    split
    · simp only [List.mem_cons, ih]
      constructor
      · rintro (h | h | h) <;> simp [h]
      · rintro (h | h | h) <;> simp [h]
    · simp

theorem place_perm (x : Timer α) (xs : List (Timer α)) : (place x xs).Perm (x :: xs) := by
  induction xs with
  | nil => exact .refl _
  | cons y ys ih =>
    rw [place]
    split
    · exact (ih.cons y).trans (.swap x y ys)
    · exact .refl _

end Timers

end DurableFlow
