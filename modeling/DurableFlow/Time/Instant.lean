import DurableFlow.Time.Calendar

/-!
# Durations and instants

A duration is a number of nanoseconds below `UInt64.size` seconds, an instant a number of nanoseconds
from 1 January 1970. Adding a duration to an instant stops at the last instant that the calendar
has (`Instant.after`); main statement: the sum is the lesser of the two (`nanos_after`).
-/

namespace DurableFlow

/-- Nanoseconds in a second. -/
def nanosPerSecond : Nat := 1000000000

/-- A span of time of whole nanoseconds, shorter than `UInt64.size` seconds. -/
structure Duration where
  nanos : Nat
  bounded : nanos < UInt64.size * nanosPerSecond
  deriving DecidableEq

namespace Duration

/-- The given number of seconds and of nanoseconds beyond them. -/
def ofParts (seconds : UInt64) (nanos : Fin nanosPerSecond) : Duration where
  nanos := seconds.toNat * nanosPerSecond + nanos
  bounded := by
    have h₁ := seconds.toNat_lt
    have h₂ := nanos.isLt
    simp only [nanosPerSecond, UInt64.size] at *
    omega

/-- The given number of whole seconds. -/
def ofSeconds (seconds : UInt64) : Duration := ofParts seconds ⟨0, by decide⟩

/-- The given number of milliseconds. -/
def ofMillis (millis : UInt64) : Duration where
  nanos := millis.toNat * 1000000
  bounded := by
    have h := millis.toNat_lt
    simp only [nanosPerSecond, UInt64.size]
    omega

/-- The longest duration. -/
def longest : Duration := ⟨UInt64.size * nanosPerSecond - 1, by decide⟩

/-- The whole seconds of a duration. -/
def seconds (d : Duration) : Nat := d.nanos / nanosPerSecond

/-- The nanoseconds of a duration beyond its whole seconds. -/
def subsecNanos (d : Duration) : Nat := d.nanos % nanosPerSecond

/-- The whole milliseconds of a duration. -/
def millis (d : Duration) : Nat := d.nanos / 1000000

end Duration

/-- A point of time, in nanoseconds from the start of 1970. -/
structure Instant where
  nanos : Int
  deriving DecidableEq

namespace Instant

/-- The last nanosecond of the last year of the calendar, 262142. -/
def latest : Instant :=
  ⟨(Calendar.dayNumber ⟨262143, 1, 1⟩ * 86400) * nanosPerSecond - 1⟩

/-- The longest span that is added at all: as many milliseconds as 64 bits with sign count. -/
def longestShift : Nat := (UInt64.size / 2 - 1) * 1000000

/-- The instant a duration later, or the last instant if the calendar does not reach that far. -/
def after (now : Instant) (d : Duration) : Instant :=
  if d.nanos ≤ longestShift then
    if now.nanos + d.nanos ≤ latest.nanos then ⟨now.nanos + d.nanos⟩ else latest
  else latest

/-- How long it is from `now` until an instant, and nothing if it has passed. -/
def waitFrom (now due : Instant) : Nat := (due.nanos - now.nanos).toNat

/-- The first nanosecond of the first year of the calendar, -262143. -/
def earliest : Instant := ⟨Calendar.dayNumber ⟨-262143, 1, 1⟩ * 86400 * nanosPerSecond⟩

theorem latest_nanos : latest.nanos = 8210266876799999999999 := by decide

theorem earliest_nanos : earliest.nanos = -8334601228800000000000 := by decide

/-- A sum within the calendar is exact, and any other is the last instant. -/
theorem nanos_after (now : Instant) (d : Duration) (h : earliest.nanos ≤ now.nanos) :
    (now.after d).nanos = min (now.nanos + d.nanos) latest.nanos := by
  rw [earliest_nanos] at h
  unfold after longestShift
  split
  · split
    · rename_i hle
      exact (Int.min_eq_left hle).symm
    · rename_i hle
      exact (Int.min_eq_right (by omega)).symm
  · rename_i hlong
    rw [UInt64.size] at hlong
    exact (Int.min_eq_right (by rw [latest_nanos]; omega)).symm

end Instant

end DurableFlow
