/-!
# Decimal digits

A natural number is written with its decimal digits, most significant first and without leading
zeros. A nonempty run of ASCII digits is read to its value, so reading what was written gives the
number back. An index is a number below `2 ^ 64` that may carry a plus sign.
-/

namespace RemoteQuery.Digits

def ofNat (n : Nat) : List Char := Nat.toDigits 10 n

def ofInt (i : Int) : List Char :=
  if i < 0 then '-' :: ofNat i.natAbs else ofNat i.natAbs

def padded (width n : Nat) : List Char :=
  List.replicate (width - (ofNat n).length) '0' ++ ofNat n

def toNat? (cs : List Char) : Option Nat :=
  if cs ≠ [] ∧ cs.all Char.isDigit then some (Nat.ofDigitChars 10 cs 0) else none

theorem isDigit_of_mem_ofNat {n : Nat} {c : Char} (h : c ∈ ofNat n) : c.isDigit :=
  Nat.isDigit_of_mem_toDigits (by decide) (by decide) h

theorem ofNat_ne_nil (n : Nat) : ofNat n ≠ [] := Nat.toDigits_ne_nil

theorem toNat?_ofNat (n : Nat) : toNat? (ofNat n) = some n := by
  have h : (ofNat n).all Char.isDigit = true := by
    simpa using fun c => isDigit_of_mem_ofNat (n := n) (c := c)
  simp [toNat?, ofNat_ne_nil, h]
  simp [ofNat]

theorem ofNat_injective {m n : Nat} (h : ofNat m = ofNat n) : m = n := by
  have h' := congrArg toNat? h
  simpa [toNat?_ofNat] using h'

def indexLimit : Nat := UInt64.size

def index? (cs : List Char) : Option Nat :=
  let digits := match cs with
    | '+' :: rest => rest
    | _ => cs
  (toNat? digits).filter (· < indexLimit)

end RemoteQuery.Digits
