import NativeExpr.Scalar.Precision

/-!
# Shortest decimals

The decimal of a double-precision number is taken from the coarsest decimal grid
that has a point among the reals which round to the number; of the points beside
the number on that grid the nearer is taken, and midway between them the one farther
from zero. It is written without an exponent.
-/
namespace NativeExpr

/-- The decimal number `digits * 10 ^ exponent`. -/
structure Decimal where
  digits : Nat
  exponent : Int
  deriving DecidableEq, Repr

namespace Decimal

def digitString (n : Nat) : String := toString n

def zeros (n : Nat) : String := String.ofList (List.replicate n '0')

/-- All digits of the number, without an exponent and without a final point. -/
def positional (d : Decimal) : String :=
  if 0 ≤ d.exponent then digitString d.digits ++ zeros d.exponent.toNat
  else
    let places := (-d.exponent).toNat
    let cs := (digitString d.digits).toList
    let padded := List.replicate (places + 1 - cs.length) '0' ++ cs
    String.ofList (padded.take (padded.length - places)) ++ "."
      ++ String.ofList (padded.drop (padded.length - places))

end Decimal

/-- A positive number with the ends of the interval of reals that round to it,
all in units of `2 ^ scale`. -/
structure RoundingInterval where
  low : Nat
  value : Nat
  high : Nat
  scale : Int
  /-- Whether the ends round to the number as well. -/
  closed : Bool
  deriving DecidableEq, Repr

namespace RoundingInterval

/-- The interval of the double-precision number with this nonzero magnitude. Below
a power of two the neighbours lie half as far apart as above it. -/
def ofMagnitude (magnitude : Nat) : RoundingInterval :=
  let exponent := magnitude >>> 52
  let fraction := magnitude % (1 <<< 52)
  let m := if exponent = 0 then fraction else 1 <<< 52 + fraction
  let below := if fraction = 0 ∧ 1 < exponent then 1 else 2
  { low := 4 * m - below
    value := 4 * m
    high := 4 * m + 2
    scale := (max exponent 1 : Nat) - 1077
    closed := m % 2 == 0 }

/-- Whether a point on the units' scale lies in the interval. -/
def contains (i : RoundingInterval) (unit point : Nat) : Bool :=
  if i.closed then i.low * unit ≤ point && point ≤ i.high * unit
  else i.low * unit < point && point < i.high * unit

/-- The point nearest to the number on the grid of multiples of `10 ^ k`, if the
interval has one. A number midway between two points goes to the greater. -/
def nearest? (i : RoundingInterval) (k : Int) : Option Nat :=
  let unit := Nat.pow 10 (-k).toNat <<< i.scale.toNat
  let step := Nat.pow 10 k.toNat <<< (-i.scale).toNat
  let down := i.value * unit / step
  let up := down + 1
  let inDown := 0 < down && i.contains unit (down * step)
  let inUp := i.contains unit (up * step)
  if inDown && (!inUp || i.value * unit - down * step < up * step - i.value * unit) then some down
  else if inUp then some up
  else none

/-- Tries the grids from `10 ^ k` on, each ten times as fine as the one before. -/
def search (i : RoundingInterval) (k : Int) : Nat → Decimal
  | 0 => ⟨0, 0⟩
  | fuel + 1 =>
    match i.nearest? k with
    | some digits => ⟨digits, k⟩
    | none => i.search (k - 1) fuel

/-- The shortest decimal in the interval. Every double-precision number is below
`10 ^ 309`, and every interval has a point on the grid of `10 ^ (-325)`. -/
def shortest (i : RoundingInterval) : Decimal := i.search 309 635

end RoundingInterval

def Decimal.render (pattern : Word) : String :=
  let p := Precision.double
  let magnitude := p.magnitude pattern
  if p.isNaN pattern then "NaN"
  else
    let unsigned :=
      if magnitude = 0 then "0"
      else if magnitude = p.topExponent <<< p.fractionBits then "inf"
      else (RoundingInterval.ofMagnitude magnitude).shortest.positional
    (if p.isNegative pattern then "-" else "") ++ unsigned

end NativeExpr
