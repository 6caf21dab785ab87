import RemoteQuery.Text.Hex

/-!
# Globally unique identifiers

An identifier is a number of 128 bits. It is written as 32 lower-case hexadecimal digits in groups
of eight, four, four, four and twelve. It is read from that form, also within braces or after
`urn:uuid:`, and from the bare digits, all in any letter case.
-/

namespace RemoteQuery

structure Guid where
  value : BitVec 128
deriving DecidableEq

namespace Guid

def digits (g : Guid) : List Char := Hex.digits 32 g.value.toNat

def text (g : Guid) : List Char :=
  let cs := g.digits
  cs.take 8 ++ '-' :: (cs.drop 8).take 4 ++ '-' :: (cs.drop 12).take 4 ++
    '-' :: (cs.drop 16).take 4 ++ '-' :: cs.drop 20

def ofDigits? (cs : List Char) : Option Guid :=
  if cs.length = 32 then (Hex.toNat? cs).map fun n => ⟨BitVec.ofNat 128 n⟩ else none

def unhyphen? (cs : List Char) : Option (List Char) :=
  if cs.length = 36 ∧ [8, 13, 18, 23].all (fun i => cs[i]? == some '-') then
    some (cs.take 8 ++ (cs.drop 9).take 4 ++ (cs.drop 14).take 4 ++ (cs.drop 19).take 4 ++
      cs.drop 24)
  else none

def urn : List Char := "urn:uuid:".toList

def read? (cs : List Char) : Option Guid :=
  if cs.length = 32 then ofDigits? cs
  else if cs.length = 38 ∧ cs.head? = some '\x7b' ∧ cs.getLast? = some '\x7d' then
    (unhyphen? cs.tail.dropLast).bind ofDigits?
  else if (cs.take urn.length).map Char.toLower = urn then
    (unhyphen? (cs.drop urn.length)).bind ofDigits?
  else (unhyphen? cs).bind ofDigits?

end Guid
end RemoteQuery
