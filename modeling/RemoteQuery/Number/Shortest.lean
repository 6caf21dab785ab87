import RemoteQuery.Text.Digits
import RemoteQuery.Number.Binary

/-!
# Shortest decimals

A finite float is written with the fewest digits that read back to it. The numbers that read back
form an interval around the value; its ends belong to it when the significand is even. The
multiples of a power of ten form a grid, and the coarsest grid with a point in the interval is
used. Of the two grid points around the value the nearer one is taken, and the upper one of two
equally near.
-/

namespace RemoteQuery.Shortest

structure Scaled where
  digits : Nat
  exponent : Int
deriving DecidableEq

/-- A positive value and the interval that reads back to it, in units of one quarter of the last
place; the unit is `2 ^ exponent`. -/
structure Interval where
  low : Nat
  value : Nat
  high : Nat
  exponent : Int
  closed : Bool

/-- The gap below a power of two is half the gap above it, but for the least exponent. -/
def interval (f : FloatFormat) (significand : Nat) (exponent : Int) : Interval where
  low := if significand = Nat.pow 2 f.fractionBits ∧ f.leastExponent < exponent
    then 4 * significand - 1 else 4 * significand - 2
  value := 4 * significand
  high := 4 * significand + 2
  exponent := exponent - 2
  closed := significand % 2 == 0

def Interval.contains (i : Interval) (unit grid n : Nat) : Bool :=
  if i.closed then i.low * unit ≤ n * grid && n * grid ≤ i.high * unit
  else i.low * unit < n * grid && n * grid < i.high * unit

def Interval.onGrid (i : Interval) (e : Int) : Option Scaled :=
  let p := FloatFormat.powerRatio i.exponent
  let ten := if 0 ≤ e then (Nat.pow 10 e.toNat, 1) else (1, Nat.pow 10 (-e).toNat)
  let unit := p.1 * ten.2
  let grid := ten.1 * p.2
  let below := i.value * unit / grid
  let lower := 0 < below && i.contains unit grid below
  let upper := i.contains unit grid (below + 1)
  let nearerBelow := 2 * (i.value * unit) < (2 * below + 1) * grid
  if lower && (!upper || nearerBelow) then some ⟨below, e⟩
  else if upper then some ⟨below + 1, e⟩
  else none

def Interval.shortest (i : Interval) : Scaled :=
  let p := FloatFormat.powerRatio i.exponent
  let top : Int := (Digits.ofNat (i.value * p.1 / p.2)).length
  let count := top.toNat + (-i.exponent).toNat + 1
  let grids := (List.range count).map fun (k : Nat) => top - (k : Int)
  (grids.findSome? i.onGrid).getD ⟨0, 0⟩

def ofFinite (f : FloatFormat) (significand : Nat) (exponent : Int) : Scaled :=
  if significand = 0 then ⟨0, 0⟩ else (interval f significand exponent).shortest

def Scaled.positional (s : Scaled) : List Char :=
  if 0 ≤ s.exponent then
    if s.digits = 0 then ['0'] else Digits.ofNat s.digits ++ List.replicate s.exponent.toNat '0'
  else
    let places := (-s.exponent).toNat
    let cs := Digits.padded (places + 1) s.digits
    cs.take (cs.length - places) ++ '.' :: cs.drop (cs.length - places)

def text (f : FloatFormat) (significand : Nat) (exponent : Int) : List Char :=
  (ofFinite f significand exponent).positional

end RemoteQuery.Shortest
