/-!
# Hexadecimal digits

A number is written with a fixed count of lower-case hexadecimal digits, most significant first.
Digits are read in either letter case.
-/

namespace RemoteQuery.Hex

def digits (width n : Nat) : List Char :=
  (List.range width).map fun i => Nat.digitChar (n / Nat.pow 16 (width - 1 - i) % 16)

theorem length_digits (width n : Nat) : (digits width n).length = width := by simp [digits]

def value? (c : Char) : Option Nat :=
  if c.isDigit then some (c.toNat - '0'.toNat)
  else if 'a' ≤ c ∧ c ≤ 'f' then some (c.toNat - 'a'.toNat + 10)
  else if 'A' ≤ c ∧ c ≤ 'F' then some (c.toNat - 'A'.toNat + 10)
  else none

def toNat? (cs : List Char) : Option Nat :=
  (cs.mapM value?).map (List.foldl (fun n d => 16 * n + d) 0)

end RemoteQuery.Hex
