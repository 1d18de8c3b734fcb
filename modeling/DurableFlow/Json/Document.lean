import DurableFlow.Json.Value

/-!
# Documents

A document is a value as it is written: fields keep their order and may repeat a key, and a number
or a text that has no value (a double out of range, half of a surrogate pair) is kept without one,
because a reader that passes over a part of a document does not look at its values. `Document.read`
is the grammar; `Document.value?` is the value of a document that is not nested too deeply.
-/

namespace DurableFlow

/-- A written value. -/
inductive Document
  | null
  | bool (b : Bool)
  | number (n : Option Number)
  | text (s : Option String)
  | list (items : List Document)
  | object (fields : List (Option String × Document))

namespace Document

/-- The least nesting of lists and objects that is too deep to have a value. -/
def depthLimit : Nat := 128

mutual

/-- The value of a document within the given number of levels. -/
def valueWithin : Document → Nat → Option Json
  | .null, _ => some .null
  | .bool b, _ => some (.bool b)
  | .number n, _ => n.map .number
  | .text s, _ => s.map .text
  | .list items, depth => if depth ≤ 1 then none else (itemsWithin items (depth - 1)).map .list
  | .object fields, depth =>
    if depth ≤ 1 then none else (fieldsWithin fields (depth - 1)).map Json.ofFields

/-- The values of a list. -/
def itemsWithin : List Document → Nat → Option (List Json)
  | [], _ => some []
  | d :: ds, depth => do return (← valueWithin d depth) :: (← itemsWithin ds depth)

/-- The values of the fields of an object. -/
def fieldsWithin : List (Option String × Document) → Nat → Option (List (String × Json))
  | [], _ => some []
  | (k, d) :: fs, depth => do
    let key ← k
    return (key, ← valueWithin d depth) :: (← fieldsWithin fs depth)

end

/-- The value of a document. -/
def value? (d : Document) : Option Json := d.valueWithin depthLimit

/-! ## Numbers -/

/-- A number while its digits are read: the digits that fit 64 bits, and the power of ten that
those beyond them or behind the point amount to. -/
structure Scan where
  significand : Nat := 0
  exponent : Int := 0
  full : Bool := false

/-- Reads one more digit of the whole part. -/
def Scan.whole (s : Scan) (digit : Nat) : Scan :=
  if s.full then { s with exponent := s.exponent + 1 }
  else if s.significand * 10 + digit < UInt64.size then
    { s with significand := s.significand * 10 + digit }
  else { s with exponent := s.exponent + 1, full := true }

/-- Reads one more digit of the fraction; those that no longer fit are dropped. -/
def Scan.fraction (s : Scan) (digit : Nat) : Scan :=
  if s.full then s
  else if s.significand * 10 + digit < UInt64.size then
    { s with significand := s.significand * 10 + digit, exponent := s.exponent - 1 }
  else { s with full := true }

/-- A double times a power of ten, rounded once; too small a power is divided out in two goes. -/
def scaleDouble : (fuel : Nat) → Float → Int → Option Float
  | 0, f, _ => some f
  | fuel + 1, f, e =>
    if e.natAbs ≤ 308 then
      let power := Float.ofScientific 1 false e.natAbs
      if 0 ≤ e then
        let scaled := f * power
        if scaled.isInf then none else some scaled
      else some (f / power)
    else if f == 0 then some f
    else if 0 ≤ e then none
    else scaleDouble fuel (f / Float.ofScientific 1 false 308) (e + 308)

/-- The nearest double of the digits, scaled by the power of ten and signed. -/
def doubleOf (negative : Bool) (significand : Nat) (exponent : Int) : Option Number :=
  (scaleDouble 5 (UInt64.ofNat significand).toFloat exponent).map fun f =>
    .double (if negative then -f else f).toBits

/-- A number without point and exponent: whole where 64 bits suffice, else a double. -/
def wholeNumber (negative : Bool) (s : Scan) : Option Number :=
  if s.full then doubleOf negative s.significand s.exponent
  else if !negative then some (.int s.significand)
  else if 0 < s.significand ∧ s.significand ≤ Json.signBit then some (.int (-s.significand))
  else doubleOf true s.significand 0

/-- The digits in front and what follows them. -/
def splitDigits (cs : List Char) : List Nat × List Char :=
  ((cs.takeWhile Char.isDigit).map fun c => c.toNat - '0'.toNat, cs.dropWhile Char.isDigit)

/-- The exponent after its letter. -/
def readExponent (cs : List Char) : Option (Int × List Char) :=
  let (negative, cs) := match cs with
    | '-' :: rest => (true, rest)
    | '+' :: rest => (false, rest)
    | _ => (false, cs)
  match splitDigits cs with
  | ([], _) => none
  | (ds, rest) =>
    let n : Int := (ds.foldl (fun n d => n * 10 + d) 0 : Nat)
    some (if negative then -n else n, rest)

/-- A number after its sign: no zeros in front, digits on both sides of a point. -/
def readNumber (negative : Bool) (cs : List Char) : Option (Option Number × List Char) :=
  match splitDigits cs with
  | ([], _) => none
  | (d :: ds, rest) =>
    if d = 0 ∧ ds ≠ [] then none
    else
      let whole := (d :: ds).foldl Scan.whole {}
      match rest with
      | '.' :: rest =>
        match splitDigits rest with
        | ([], _) => none
        | (fs, rest) =>
          let scan := fs.foldl Scan.fraction { whole with full := false }
          finish scan true rest
      | _ => finish whole false rest
where
  /-- The exponent, if there is one, and the number as a whole. -/
  finish (s : Scan) (point : Bool) (rest : List Char) : Option (Option Number × List Char) :=
    match rest with
    | c :: rest' =>
      if c = 'e' ∨ c = 'E' then
        (readExponent rest').map fun (e, rest) =>
          (doubleOf negative s.significand (s.exponent + e), rest)
      else some (plain s point, rest)
    | [] => some (plain s point, [])
  /-- The number when no exponent follows. -/
  plain (s : Scan) (point : Bool) : Option Number :=
    if point then doubleOf negative s.significand s.exponent else wholeNumber negative s

/-! ## Texts -/

/-- The value of a hexadecimal digit. -/
def hexValue? (c : Char) : Option Nat :=
  if c.isDigit then some (c.toNat - '0'.toNat)
  else if 'a' ≤ c ∧ c ≤ 'f' then some (c.toNat - 'a'.toNat + 10)
  else if 'A' ≤ c ∧ c ≤ 'F' then some (c.toNat - 'A'.toNat + 10)
  else none

/-- The value of four hexadecimal digits. -/
def hex4? (a b c d : Char) : Option Nat := do
  return (((← hexValue? a) * 16 + (← hexValue? b)) * 16 + (← hexValue? c)) * 16 + (← hexValue? d)

/-- The character that a letter after a backslash stands for. -/
def simpleEscape? : Char → Option Char
  | '"' => some '"'
  | '\\' => some '\\'
  | '/' => some '/'
  | 'b' => some '\x08'
  | 'f' => some '\x0c'
  | 'n' => some '\n'
  | 'r' => some '\r'
  | 't' => some '\t'
  | _ => none

/-- Whether a unit is the first half of a surrogate pair. -/
def isHighSurrogate (n : Nat) : Bool := 0xD800 ≤ n && n < 0xDC00

/-- Whether a unit is the second half of a surrogate pair. -/
def isLowSurrogate (n : Nat) : Bool := 0xDC00 ≤ n && n < 0xE000

/-- The rest of a text after its first quotation mark, with the characters read so far in reverse
order; `valid` is lost at half of a surrogate pair. -/
def readText (acc : List Char) (valid : Bool) : List Char → Option (Option String × List Char)
  | '"' :: rest => some (if valid then some (String.ofList acc.reverse) else none, rest)
  | '\\' :: 'u' :: a :: b :: c :: d :: '\\' :: 'u' :: a' :: b' :: c' :: d' :: rest =>
    match hex4? a b c d, hex4? a' b' c' d' with
    | some n, some n' =>
      if isHighSurrogate n ∧ isLowSurrogate n' then
        readText (Char.ofNat (0x10000 + (n - 0xD800) * 0x400 + (n' - 0xDC00)) :: acc) valid rest
      else if isHighSurrogate n ∨ isLowSurrogate n then
        readText acc false ('\\' :: 'u' :: a' :: b' :: c' :: d' :: rest)
      else readText (Char.ofNat n :: acc) valid ('\\' :: 'u' :: a' :: b' :: c' :: d' :: rest)
    | _, _ => none
  | '\\' :: 'u' :: a :: b :: c :: d :: rest =>
    match hex4? a b c d with
    | some n =>
      if isHighSurrogate n ∨ isLowSurrogate n then readText acc false rest
      else readText (Char.ofNat n :: acc) valid rest
    | none => none
  | '\\' :: c :: rest =>
    match simpleEscape? c with
    | some c => readText (c :: acc) valid rest
    | none => none
  | c :: rest => if c.toNat < 32 then none else readText (c :: acc) valid rest
  | [] => none
termination_by cs => cs.length

/-! ## Values -/

/-- Whether the character may stand between the parts of a document. -/
def isSpace (c : Char) : Bool := c == ' ' || c == '\n' || c == '\t' || c == '\r'

/-- Drops the blanks in front. -/
def skipSpace (cs : List Char) : List Char := cs.dropWhile isSpace

mutual

/-- The document in front, and what follows it. -/
def readValue : (fuel : Nat) → List Char → Option (Document × List Char)
  | 0, _ => none
  | fuel + 1, cs =>
    match skipSpace cs with
    | 'n' :: 'u' :: 'l' :: 'l' :: rest => some (.null, rest)
    | 't' :: 'r' :: 'u' :: 'e' :: rest => some (.bool true, rest)
    | 'f' :: 'a' :: 'l' :: 's' :: 'e' :: rest => some (.bool false, rest)
    | '"' :: rest => (readText [] true rest).map fun (s, rest) => (.text s, rest)
    | '-' :: rest => (readNumber true rest).map fun (n, rest) => (.number n, rest)
    | '[' :: rest =>
      match skipSpace rest with
      | ']' :: rest => some (.list [], rest)
      | rest => (readItems fuel rest).map fun (ds, rest) => (.list ds, rest)
    | '\x7b' :: rest =>
      match skipSpace rest with
      | '\x7d' :: rest => some (.object [], rest)
      | rest => (readFields fuel rest).map fun (fs, rest) => (.object fs, rest)
    | rest => (readNumber false rest).map fun (n, rest) => (.number n, rest)

/-- The items of a list up to its closing bracket. -/
def readItems : (fuel : Nat) → List Char → Option (List Document × List Char)
  | 0, _ => none
  | fuel + 1, cs => do
    let (d, rest) ← readValue fuel cs
    match skipSpace rest with
    | ',' :: rest =>
      let (ds, rest) ← readItems fuel rest
      return (d :: ds, rest)
    | ']' :: rest => return ([d], rest)
    | _ => none

/-- The fields of an object up to its closing brace. -/
def readFields : (fuel : Nat) → List Char → Option (List (Option String × Document) × List Char)
  | 0, _ => none
  | fuel + 1, cs =>
    match skipSpace cs with
    | '"' :: rest => do
      let (key, rest) ← readText [] true rest
      match skipSpace rest with
      | ':' :: rest =>
        let (d, rest) ← readValue fuel rest
        match skipSpace rest with
        | ',' :: rest =>
          let (fs, rest) ← readFields fuel rest
          return ((key, d) :: fs, rest)
        | '\x7d' :: rest => return ([(key, d)], rest)
        | _ => none
      | _ => none
    | _ => none

end

/-- Reads a whole text as one document; a character is passed at least every second call. -/
def read (s : String) : Option Document :=
  let cs := s.toList
  match readValue (2 * cs.length + 2) cs with
  | some (d, rest) => if (skipSpace rest).isEmpty then some d else none
  | none => none

end Document

/-- The value that a text is written as. -/
def Json.parse? (s : String) : Option Json := do (← Document.read s).value?

end DurableFlow
