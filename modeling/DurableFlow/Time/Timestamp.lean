import DurableFlow.Text
import DurableFlow.Time.Instant

/-!
# Timestamps as text

A timestamp is written as date, time of day and offset from universal time. Reading is lenient
about blanks between the parts, about the number of digits and about the letter between date and
time; writing gives universal time with no fraction, or with three, six or nine digits of it.
-/

namespace DurableFlow

/-- Seconds from the start of 1970 and nanoseconds beyond them; in a leap second the nanoseconds
run past one second. -/
structure Timestamp where
  seconds : Int
  nanos : Nat
  deriving DecidableEq, Repr

namespace Timestamp

/-! ## Writing -/

/-- The decimal digits of a number, with zeros in front up to the given width. -/
def padded (width n : Nat) : String :=
  let digits := toString n
  String.ofList (List.replicate (width - digits.length) '0') ++ digits

/-- The year with four digits; a sign stands before any other year. -/
def yearText (year : Int) : String :=
  if 0 ≤ year ∧ year ≤ 9999 then padded 4 year.toNat
  else (if year < 0 then "-" else "+") ++ padded 4 year.natAbs

/-- The fraction of a second, in the first of the widths 0, 3, 6 and 9 that loses nothing. -/
def fractionText (nanos : Nat) : String :=
  if nanos = 0 then ""
  else if nanos % 1000000 = 0 then "." ++ padded 3 (nanos / 1000000)
  else if nanos % 1000 = 0 then "." ++ padded 6 (nanos / 1000)
  else "." ++ padded 9 nanos

/-- The timestamp in universal time. -/
def text (t : Timestamp) : String :=
  let date := Calendar.dateOf (t.seconds / 86400)
  let second := (t.seconds % 86400).toNat
  let leap := if t.nanos ≥ nanosPerSecond then 1 else 0
  yearText date.year ++ "-" ++ padded 2 date.month ++ "-" ++ padded 2 date.day ++ "T"
    ++ padded 2 (second / 3600) ++ ":" ++ padded 2 (second / 60 % 60) ++ ":"
    ++ padded 2 (second % 60 + leap) ++ fractionText (t.nanos % nanosPerSecond) ++ "Z"

/-- The timestamp of an instant. -/
def ofInstant (i : Instant) : Timestamp where
  seconds := i.nanos / nanosPerSecond
  nanos := (i.nanos % nanosPerSecond).toNat

/-! ## Reading -/

/-- The value of a digit. -/
def digit? (c : Char) : Option Nat :=
  if c.isDigit then some (c.toNat - '0'.toNat) else none

/-- The digits in front, at most `width` of them, read as a number, with how many they are. -/
def digits : (width value count : Nat) → List Char → Nat × Nat × List Char
  | 0, value, count, cs => (value, count, cs)
  | _ + 1, value, count, [] => (value, count, [])
  | w + 1, value, count, c :: cs =>
    match digit? c with
    | some d => digits w (value * 10 + d) (count + 1) cs
    | none => (value, count, c :: cs)

/-- Drops the blanks in front. -/
def skipBlanks (cs : List Char) : List Char := cs.dropWhile isBlankChar

/-- A number of one to `width` digits after blanks. -/
def number? (width : Nat) (cs : List Char) : Option (Nat × List Char) :=
  match digits width 0 0 (skipBlanks cs) with
  | (_, 0, _) => none
  | (n, _, rest) => some (n, rest)

/-- A year after blanks: four digits, or a sign and any number of digits. -/
def year? (cs : List Char) : Option (Int × List Char) :=
  match skipBlanks cs with
  | '-' :: rest => signed rest fun n => -n
  | '+' :: rest => signed rest fun n => n
  | rest => (number? 4 rest).map fun (n, rest) => ((n : Int), rest)
where
  /-- The digits of a signed year. -/
  signed (cs : List Char) (sign : Int → Int) : Option (Int × List Char) :=
    match digits cs.length 0 0 cs with
    | (_, 0, _) => none
    | (n, _, rest) => some (sign n, rest)

/-- The given mark, with blanks on both sides. -/
def mark? (c : Char) (cs : List Char) : Option (List Char) :=
  match skipBlanks cs with
  | c' :: rest => if c' = c then some rest else none
  | [] => none

/-- The fraction after a point, as nanoseconds; digits after the ninth are dropped. -/
def fraction? : List Char → Option (Nat × List Char)
  | '.' :: cs =>
    match digits 9 0 0 cs with
    | (_, 0, _) => none
    | (n, count, rest) => some (n * Nat.pow 10 (9 - count), rest.dropWhile Char.isDigit)
  | cs => some (0, cs)

/-- The offset from universal time in seconds: a letter for none, or a sign, hours and minutes. -/
def offset? (cs : List Char) : Option (Int × List Char) :=
  match cs with
  | 'Z' :: rest => some (0, rest)
  | 'z' :: rest => some (0, rest)
  | '+' :: rest => hoursAndMinutes rest fun n => n
  | '-' :: rest => hoursAndMinutes rest fun n => -n
  | '\u2212' :: rest => hoursAndMinutes rest fun n => -n
  | u :: t :: c :: rest =>
    if String.ofList [u.toUpper, t.toUpper, c.toUpper] = "UTC" then some (0, rest) else none
  | _ => none
where
  /-- Two digits of hours, colons or blanks, and two digits of minutes. -/
  hoursAndMinutes (cs : List Char) (sign : Int → Int) : Option (Int × List Char) :=
    match digits 2 0 0 cs with
    | (h, 2, rest) =>
      match digits 2 0 0 (rest.dropWhile fun c => c == ':' || isBlankChar c) with
      | (m, 2, rest) =>
        if m < 60 ∧ h < 24 then some (sign (h * 3600 + m * 60 : Nat), rest) else none
      | _ => none
    | _ => none

/-- The letter or the blank between date and time. -/
def separator? : List Char → Option (List Char)
  | 'T' :: cs => some cs
  | 't' :: cs => some cs
  | ' ' :: cs => some cs
  | _ => none

/-- Reads a timestamp; only blanks may follow it. -/
def parse? (s : String) : Option Timestamp := do
  let (year, cs) ← year? s.toList
  let cs ← mark? '-' cs
  let (month, cs) ← number? 2 cs
  let cs ← mark? '-' cs
  let (day, cs) ← number? 2 cs
  let cs ← separator? cs
  let (hour, cs) ← number? 2 cs
  let cs ← mark? ':' cs
  let (minute, cs) ← number? 2 cs
  let cs ← mark? ':' cs
  let (second, cs) ← number? 2 cs
  let (nanos, cs) ← fraction? cs
  let (offset, cs) ← offset? (skipBlanks cs)
  guard (cs.all isBlankChar)
  let date : Calendar.Date := ⟨year, month, day⟩
  guard (date.isValid && decide (-262143 ≤ year ∧ year ≤ 262142))
  guard (decide (hour < 24 ∧ minute < 60 ∧ second ≤ 60))
  let leap := if second = 60 then nanosPerSecond else 0
  let local_ := Calendar.dayNumber date * 86400 + (hour * 3600 + minute * 60 + min second 59 : Nat)
  let t : Timestamp := ⟨local_ - offset, nanos + leap⟩
  guard (decide (Instant.earliest.nanos ≤ t.seconds * nanosPerSecond
    ∧ t.seconds * nanosPerSecond ≤ Instant.latest.nanos))
  return t

end Timestamp

end DurableFlow
