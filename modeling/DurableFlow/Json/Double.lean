/-!
# Doubles as decimal text

A finite double is `m * 2 ^ q` for whole `m` and `q`; every real of an interval around it reads
back as the same double, the ends included exactly when `m` is even. Its shortest decimal is the
first of the grids of one, two, … up to seventeen digits that has a point in the interval, and of
two such points the nearer one; only the two neighbours of the value on a grid have to be tried.

A double is written positionally from `10 ^ -5` up to below `10 ^ 16` and with an exponent
elsewhere, and always with a point or an exponent.
-/

namespace DurableFlow.Double

/-- The leading bit of the significand of a double that is not subnormal. -/
def leading : Nat := Nat.pow 2 52

/-- The whole numbers `m` and `q` with `m * 2 ^ q` the absolute value of a finite double. -/
def significand (bits : UInt64) : Nat × Int :=
  let field := (bits.toNat / leading) % Nat.pow 2 11
  let fraction := bits.toNat % leading
  if field = 0 then (fraction, -1074) else (fraction + leading, (field : Int) - 1075)

/-- Whether the sign bit is set. -/
def isNegative (bits : UInt64) : Bool := bits.toNat / Nat.pow 2 63 == 1

/-- Whether the double is 0 of either sign. -/
def isZero (bits : UInt64) : Bool := (significand bits).1 == 0

/-- Whether two finite doubles are the same number. -/
def same (a b : UInt64) : Bool := a == b || (isZero a && isZero b)

/-- A positive double with the interval that reads back as it, all over one denominator. -/
structure Neighbourhood where
  low : Nat
  value : Nat
  high : Nat
  denominator : Nat
  closed : Bool

/-- The interval of a double; below a power of two it is half as wide. -/
def neighbourhood (bits : UInt64) : Neighbourhood :=
  let (m, q) := significand bits
  let unit := Nat.pow 2 q.toNat
  let below := if m = leading ∧ q > -1074 then unit else 2 * unit
  { low := 4 * m * unit - below
    value := 4 * m * unit
    high := 4 * m * unit + 2 * unit
    denominator := 4 * Nat.pow 2 (-q).toNat
    closed := m % 2 == 0 }

namespace Neighbourhood

/-- Whether `digits * 10 ^ exponent` lies in the interval. -/
def contains (n : Neighbourhood) (digits : Nat) (exponent : Int) : Bool :=
  let scaled := digits * Nat.pow 10 exponent.toNat * n.denominator
  let grid := Nat.pow 10 (-exponent).toNat
  if n.closed then n.low * grid ≤ scaled && scaled ≤ n.high * grid
  else n.low * grid < scaled && scaled < n.high * grid

/-- The distance of `digits * 10 ^ exponent` from the value, in units that depend on the exponent
only. -/
def distance (n : Neighbourhood) (digits : Nat) (exponent : Int) : Nat :=
  let scaled := digits * Nat.pow 10 exponent.toNat * n.denominator
  let value := n.value * Nat.pow 10 (-exponent).toNat
  max scaled value - min scaled value

/-- The whole `e` with the value at least `10 ^ e` and below `10 ^ (e + 1)`. -/
def decimalExponent (n : Neighbourhood) : Int :=
  let e : Int := (toString n.value).length - (toString n.denominator).length
  if Nat.pow 10 e.toNat * n.denominator ≤ n.value * Nat.pow 10 (-e).toNat then e else e - 1

/-- The point of the grid of a given exponent that is in the interval, the nearer of two. -/
def pointOn (n : Neighbourhood) (exponent : Int) : Option Nat :=
  let below := n.value * Nat.pow 10 (-exponent).toNat / (Nat.pow 10 exponent.toNat * n.denominator)
  match n.contains below exponent, n.contains (below + 1) exponent with
  | true, true =>
    let d₀ := n.distance below exponent
    let d₁ := n.distance (below + 1) exponent
    if d₀ < d₁ ∨ (d₀ = d₁ ∧ below % 2 = 0) then some below else some (below + 1)
  | true, false => some below
  | false, true => some (below + 1)
  | false, false => none

/-- The first hit on the grids from `count` digits on, with the exponent of its last digit. -/
def shortestFrom (n : Neighbourhood) (top : Int) : (fuel count : Nat) → Nat × Int
  | 0, count => (n.value / n.denominator, top + 1 - count)
  | fuel + 1, count =>
    match n.pointOn (top + 1 - count) with
    | some d => (d, top + 1 - count)
    | none => shortestFrom n top fuel (count + 1)

end Neighbourhood

/-- Removes the zeros at the end of a number and counts them into the exponent. -/
def stripZeros : (fuel digits : Nat) → Int → Nat × Int
  | 0, d, e => (d, e)
  | fuel + 1, d, e => if d % 10 = 0 ∧ d ≠ 0 then stripZeros fuel (d / 10) (e + 1) else (d, e)

/-- The digits and the exponent of the shortest decimal of a positive double. -/
def shortest (bits : UInt64) : Nat × Int :=
  let n := neighbourhood bits
  let (d, e) := n.shortestFrom n.decimalExponent 17 1
  stripZeros 20 d e

/-- As many zeros as given. -/
def zeros (n : Nat) : String := String.ofList (List.replicate n '0')

/-- Writes digits with an exponent: positionally where the point stands within or close to them. -/
def layout (digits : Nat) (exponent : Int) : String :=
  let ds := toString digits
  let point := ds.length + exponent
  if 0 ≤ exponent ∧ point ≤ 16 then ds ++ zeros exponent.toNat ++ ".0"
  else if 0 < point ∧ point ≤ 16 then
    (ds.take point.toNat).copy ++ "." ++ (ds.drop point.toNat).copy
  else if -5 < point ∧ point ≤ 0 then "0." ++ zeros (-point).toNat ++ ds
  else if ds.length = 1 then ds ++ "e" ++ toString (point - 1)
  else (ds.take 1).copy ++ "." ++ (ds.drop 1).copy ++ "e" ++ toString (point - 1)

/-- The text of a finite double. -/
def text (bits : UInt64) : String :=
  let sign := if isNegative bits then "-" else ""
  if isZero bits then sign ++ "0.0"
  else
    let (d, e) := shortest bits
    sign ++ layout d e

end DurableFlow.Double
