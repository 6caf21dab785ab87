import RemoteQuery.Number.Shortest
import RemoteQuery.Json.Basic

/-!
# JSON numbers and floats

A number without fraction and exponent that fits 64 bits, signed or unsigned, is an integer; a
negative zero is not. Every other number is a float: as many leading digits as fit 64 bits are
rounded to a double, which is then multiplied or divided by a power of ten and rounded again. A
product beyond the finite doubles is refused.

A finite float is written with the fewest digits that read back to it, and with an exponent where the
point would stand too far from them. Any other float has no number and is written as null.
-/

namespace RemoteQuery

namespace Json.Number

def wholeValue (n : Number) : Nat := Nat.ofDigitChars 10 n.whole 0

def integer? (n : Number) : Option Int :=
  if n.fraction ≠ [] ∨ n.exponent ≠ none then none
  else if n.negative then
    if 0 < n.wholeValue ∧ n.wholeValue ≤ UInt64.size / 2 then some (-n.wholeValue) else none
  else if n.wholeValue < UInt64.size then some n.wholeValue
  else none

def gather (significand : Nat) : List Char → Nat × List Char
  | [] => (significand, [])
  | c :: cs =>
    let next := 10 * significand + (c.toNat - '0'.toNat)
    if next < UInt64.size then gather next cs else (significand, c :: cs)

def scaled (n : Number) : Nat × Int :=
  let (whole, wholeRest) := gather 0 n.whole
  let (significand, fractionRest) := gather whole n.fraction
  let places : Int := (n.fraction.length : Int) - fractionRest.length
  (significand, wholeRest.length - places + n.exponent.getD 0)

def parts (word : Nat) : Nat × Int :=
  match FloatFormat.double.classify word with
  | .finite _ s e => (s, e)
  | _ => (0, 0)

def multiply (a b : Nat) : Nat :=
  FloatFormat.double.roundScaled ((parts a).1 * (parts b).1) 1 ((parts a).2 + (parts b).2)

def divide (a b : Nat) : Nat :=
  FloatFormat.double.roundScaled (parts a).1 (parts b).1 ((parts a).2 - (parts b).2)

def powerOfTen (k : Nat) : Nat := FloatFormat.double.roundRatio (Nat.pow 10 k) 1

/-- Shifts a double by a power of ten. The powers go up to the 308th, and a greater division is done
in several steps. -/
def shift (word : Nat) (exponent : Int) : Option Nat :=
  if 0 ≤ exponent then
    if exponent ≤ 308 then
      let product := multiply word (powerOfTen exponent.toNat)
      if product = FloatFormat.double.infinity then none else some product
    else if word = 0 then some 0
    else none
  else if -308 ≤ exponent then some (divide word (powerOfTen (-exponent).toNat))
  else if word = 0 then some 0
  else shift (divide word (powerOfTen 308)) (exponent + 308)
termination_by (-exponent).toNat

def toDouble? (n : Number) : Option Double :=
  match n.integer? with
  | some i => some (.ofWord (i < 0) (FloatFormat.double.roundRatio i.natAbs 1))
  | none =>
    let (significand, exponent) := n.scaled
    (shift (FloatFormat.double.roundRatio significand 1) exponent).map (.ofWord n.negative)

def toSingle? (n : Number) : Option Single :=
  match n.integer? with
  | some i => some (.ofWord (i < 0) (FloatFormat.single.roundRatio i.natAbs 1))
  | none => n.toDouble?.map .ofDouble

/-- The digits with the point among them or beside zeros, if it then stands after more than `least`
and at most `most` of them; otherwise with the point after the first and an exponent. -/
def ofScaled (least most : Int) (negative : Bool) (s : Shortest.Scaled) : Number :=
  let digits := Digits.ofNat s.digits
  let point := digits.length + s.exponent
  if s.digits = 0 then ⟨negative, ['0'], ['0'], none⟩
  else if point ≤ least ∨ most < point then
    ⟨negative, digits.take 1, digits.drop 1, some (point - 1)⟩
  else if point ≤ 0 then ⟨negative, ['0'], List.replicate (-point).toNat '0' ++ digits, none⟩
  else if s.exponent < 0 then
    ⟨negative, digits.take point.toNat, digits.drop point.toNat, none⟩
  else ⟨negative, digits ++ List.replicate s.exponent.toNat '0', ['0'], none⟩

end Json.Number

def Json.ofFloat (f : FloatFormat) (least most : Int) : FloatClass → Json
  | .finite negative significand exponent =>
    .number (.ofScaled least most negative (Shortest.ofFinite f significand exponent))
  | _ => .null

def Double.toJson (d : Double) : Json := .ofFloat .double (-5) 16 d.classify

def Single.toJson (s : Single) : Json := .ofFloat .single (-6) 13 s.classify

end RemoteQuery
