/-!
# Binary floating-point words

A float is its interchange word: a sign bit, a biased exponent and a fraction. Both formats are read
through one description. A ratio of natural numbers is rounded to the nearest word, a half going to
the even one, and everything from half a step above the greatest finite value on goes to infinity.
-/

namespace RemoteQuery

structure FloatFormat where
  fractionBits : Nat
  exponentBits : Nat

namespace FloatFormat

def single : FloatFormat := ⟨23, 8⟩

def double : FloatFormat := ⟨52, 11⟩

def bias (f : FloatFormat) : Nat := Nat.pow 2 (f.exponentBits - 1) - 1

def leastExponent (f : FloatFormat) : Int := 1 - f.bias - f.fractionBits

def infinity (f : FloatFormat) : Nat := (Nat.pow 2 f.exponentBits - 1) * Nat.pow 2 f.fractionBits

def signBit (f : FloatFormat) : Nat := Nat.pow 2 (f.fractionBits + f.exponentBits)

end FloatFormat

/-- What a word stands for; a finite number is `significand * 2 ^ exponent` with its sign. -/
inductive FloatClass where
  | nan
  | infinite (negative : Bool)
  | finite (negative : Bool) (significand : Nat) (exponent : Int)
deriving DecidableEq

namespace FloatFormat

def classify (f : FloatFormat) (word : Nat) : FloatClass :=
  let negative := word / f.signBit % 2 == 1
  let biased := word / Nat.pow 2 f.fractionBits % Nat.pow 2 f.exponentBits
  let fraction := word % Nat.pow 2 f.fractionBits
  if biased = Nat.pow 2 f.exponentBits - 1 then
    if fraction = 0 then .infinite negative else .nan
  else if biased = 0 then .finite negative fraction f.leastExponent
  else .finite negative (Nat.pow 2 f.fractionBits + fraction) (f.leastExponent + (biased - 1 : Nat))

def powerRatio (e : Int) : Nat × Nat :=
  if 0 ≤ e then (Nat.pow 2 e.toNat, 1) else (1, Nat.pow 2 (-e).toNat)

def divideToEven (num den : Nat) : Nat :=
  let q := num / den
  let r := num % den
  if den < 2 * r ∨ (2 * r = den ∧ q % 2 = 1) then q + 1 else q

def leadingExponent (num den : Nat) : Int :=
  let guess : Int := (num.log2 : Int) - den.log2
  let p := powerRatio guess
  if p.1 * den ≤ num * p.2 then guess else guess - 1

def roundRatio (f : FloatFormat) (num den : Nat) : Nat :=
  if num = 0 then 0
  else
    let e := max (leadingExponent num den - f.fractionBits) f.leastExponent
    let p := powerRatio e
    let s := divideToEven (num * p.2) (den * p.1)
    min ((e - f.leastExponent).toNat * Nat.pow 2 f.fractionBits + s) f.infinity

def roundScaled (f : FloatFormat) (num den : Nat) (e : Int) : Nat :=
  let p := powerRatio e
  f.roundRatio (num * p.1) (den * p.2)

end FloatFormat

structure Double where
  bits : UInt64
deriving DecidableEq

structure Single where
  bits : UInt32
deriving DecidableEq

namespace Double

def classify (d : Double) : FloatClass := FloatFormat.double.classify d.bits.toNat

def ofWord (negative : Bool) (word : Nat) : Double :=
  ⟨UInt64.ofNat (word + if negative then FloatFormat.double.signBit else 0)⟩

end Double

namespace Single

def classify (s : Single) : FloatClass := FloatFormat.single.classify s.bits.toNat

def ofWord (negative : Bool) (word : Nat) : Single :=
  ⟨UInt32.ofNat (word + if negative then FloatFormat.single.signBit else 0)⟩

def ofDouble (d : Double) : Single :=
  match d.classify with
  | .nan => ⟨0x7FC00000⟩
  | .infinite negative => ofWord negative FloatFormat.single.infinity
  | .finite negative s e => ofWord negative (FloatFormat.single.roundScaled s 1 e)

def toDouble (s : Single) : Double :=
  match s.classify with
  | .nan => ⟨0x7FF8000000000000⟩
  | .infinite negative => .ofWord negative FloatFormat.double.infinity
  | .finite negative m e => .ofWord negative (FloatFormat.double.roundScaled m 1 e)

end Single
end RemoteQuery
