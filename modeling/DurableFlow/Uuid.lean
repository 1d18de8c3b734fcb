/-!
# Time-ordered identifiers

Identifiers of 128 bits, written as 32 hexadecimal digits in five groups. Of version 7 they start
with 48 bits of the time in milliseconds, so that later ones sort behind earlier ones.
-/

namespace DurableFlow

/-- An identifier of 128 bits. -/
structure Uuid where
  bits : Nat
  deriving DecidableEq, Repr

namespace Uuid

/-- The lengths of the groups of digits. -/
def groups : List Nat := [8, 4, 4, 4, 12]

/-- The identifier of version 7 for a time and a number of 74 bits that tells it from others. -/
def ofTime (millis seed : Nat) : Uuid :=
  let bit := Nat.pow 2
  let high := seed / bit 62 % bit 12
  let low := seed % bit 62
  ⟨millis % bit 48 * bit 80 + 7 * bit 76 + high * bit 64 + 2 * bit 62 + low⟩

/-- A digit of base sixteen. -/
def digit (n : Nat) : Char := "0123456789abcdef".toList.getD (n % 16) '0'

/-- The last digits of a number, as many as asked for, in front of others. -/
def digits : (count : Nat) → Nat → List Char → List Char
  | 0, _, acc => acc
  | count + 1, n, acc => digits count (n / 16) (digit n :: acc)

/-- Digits in groups with dashes between them. -/
def grouped : List Nat → List Char → List Char
  | [], _ => []
  | [n], cs => cs.take n
  | n :: ns, cs => cs.take n ++ '-' :: grouped ns (cs.drop n)

/-- The identifier as it is written. -/
def text (u : Uuid) : String := String.ofList (grouped groups (digits 32 u.bits []))

/-- Whether the character is a digit of base sixteen in lower case. -/
def isDigit (c : Char) : Bool := ('0' ≤ c && c ≤ '9') || ('a' ≤ c && c ≤ 'f')

/-- Whether digits of lower case stand in the right groups. -/
def isGrouped : List Nat → List Char → Bool
  | [], cs => cs.isEmpty
  | [n], cs => cs.length == n && cs.all isDigit
  | n :: ns, cs =>
    (cs.take n).length == n && (cs.take n).all isDigit && (cs.drop n).head? == some '-'
      && isGrouped ns (cs.drop (n + 1))

/-- Whether the text is an identifier of version 7, of the usual variant, in lower case. -/
def isVersion7 (s : String) : Bool :=
  let cs := s.toList
  isGrouped groups cs && cs[14]? == some '7' && (cs[19]?).any fun c => "89ab".toList.contains c

/-- Identifiers that are made up one after the other. -/
def generate (millis count : Nat) : List String :=
  (List.range count).map fun n => (ofTime millis n).text

end Uuid

end DurableFlow
