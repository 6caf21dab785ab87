import RemoteQuery.Text.Digits
import RemoteQuery.Ty.Basic

/-!
# Symbols of enumeration values

A value is written as the first symbol declared with it. In a flags enumeration a nonzero value
without a symbol of its own is taken apart: going down from the greatest member, each one whose
bits are all still set is taken and its bits are cleared. When no bit is left, the symbols that
were taken are listed in ascending order. Any other value is written with its decimal digits.
-/

namespace RemoteQuery.Enumeration

def symbolOf? (e : Enumeration) (raw : Int64) : Option String :=
  (e.members.find? (·.2 == raw)).map (·.1)

def valueOf? (e : Enumeration) (symbol : String) : Option Int64 :=
  (e.members.find? (·.1 == symbol)).map (·.2)

def descending (e : Enumeration) : List (String × Int64) :=
  (e.members.filter (·.2 != 0)).mergeSort fun a b => b.2 ≤ a.2

def take (remaining : Int64) : List (String × Int64) → List (String × Int64) × Int64
  | [] => ([], remaining)
  | m :: ms =>
    if remaining &&& m.2 = m.2 then
      let (taken, rest) := take (remaining &&& ~~~m.2) ms
      (m :: taken, rest)
    else take remaining ms

def combination? (e : Enumeration) (raw : Int64) : Option (List (String × Int64)) :=
  if e.isFlags ∧ raw ≠ 0 then
    match take raw e.descending with
    | (taken, rest) => if rest = 0 ∧ taken ≠ [] then some taken.reverse else none
  else none

def format (e : Enumeration) (raw : Int64) : String :=
  match e.symbolOf? raw with
  | some symbol => symbol
  | none => match e.combination? raw with
    | some members => ", ".intercalate (members.map (·.1))
    | none => String.ofList (Digits.ofInt raw.toInt)

end RemoteQuery.Enumeration
