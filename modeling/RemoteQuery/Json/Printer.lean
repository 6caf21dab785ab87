import RemoteQuery.Text.Digits
import RemoteQuery.Text.Hex
import RemoteQuery.Json.Basic

/-!
# Printed documents

A document is printed on one line without blanks, or laid out with an indentation of two spaces and
one item or member on a line. Inside a string only the quote, the backslash and control characters
are escaped. What is garbled has lost its text and is printed as null.
-/

namespace RemoteQuery.Json

def Number.ofInt (i : Int) : Number := ⟨i < 0, Digits.ofNat i.natAbs, [], none⟩

namespace Number

def fractionText (n : Number) : List Char := if n.fraction = [] then [] else '.' :: n.fraction

def exponentText (n : Number) : List Char :=
  match n.exponent with
  | none => []
  | some e => 'e' :: Digits.ofInt e

def print (n : Number) : List Char :=
  (if n.negative then ['-'] else []) ++ n.whole ++ n.fractionText ++ n.exponentText

end Number

def ofInt (i : Int) : Json := .number (.ofInt i)

def ofNat (n : Nat) : Json := ofInt n

def ofOption (o : Option Json) : Json := o.getD .null

def ofString? (s : Option String) : Json := ofOption (s.map .string)

def escapeChar (c : Char) : List Char :=
  if c = '"' then ['\\', '"']
  else if c = '\\' then ['\\', '\\']
  else if c = '\n' then ['\\', 'n']
  else if c = '\r' then ['\\', 'r']
  else if c = '\t' then ['\\', 't']
  else if c.toNat = 8 then ['\\', 'b']
  else if c.toNat = 12 then ['\\', 'f']
  else if c.toNat < 32 then '\\' :: 'u' :: Hex.digits 4 c.toNat
  else [c]

def printString (s : String) : List Char :=
  '"' :: (s.toList.flatMap escapeChar ++ ['"'])

mutual
def print : Json → List Char
  | .null | .garbled => ['n', 'u', 'l', 'l']
  | .bool true => ['t', 'r', 'u', 'e']
  | .bool false => ['f', 'a', 'l', 's', 'e']
  | .number n => n.print
  | .string s => printString s
  | .array [] => ['[', ']']
  | .array (j :: js) => '[' :: (j.print ++ printItems js)
  | .object [] => ['\x7b', '\x7d']
  | .object ((name, j) :: ms) =>
    '\x7b' :: (printString name ++ ':' :: (j.print ++ printMembers ms))
def printItems : List Json → List Char
  | [] => [']']
  | j :: js => ',' :: (j.print ++ printItems js)
def printMembers : List (String × Json) → List Char
  | [] => ['\x7d']
  | (name, j) :: ms => ',' :: (printString name ++ ':' :: (j.print ++ printMembers ms))
end

def newLine (level : Nat) : List Char := '\n' :: List.replicate (2 * level) ' '

mutual
def layout (level : Nat) : Json → List Char
  | .array [] => ['[', ']']
  | .array (j :: js) =>
    '[' :: (newLine (level + 1) ++ layout (level + 1) j ++ layoutItems level js)
  | .object [] => ['\x7b', '\x7d']
  | .object ((name, j) :: ms) =>
    '\x7b' :: (newLine (level + 1) ++ printString name ++
      ':' :: ' ' :: (layout (level + 1) j ++ layoutMembers level ms))
  | j => j.print
def layoutItems (level : Nat) : List Json → List Char
  | [] => newLine level ++ [']']
  | j :: js => ',' :: (newLine (level + 1) ++ layout (level + 1) j ++ layoutItems level js)
def layoutMembers (level : Nat) : List (String × Json) → List Char
  | [] => newLine level ++ ['\x7d']
  | (name, j) :: ms =>
    ',' :: (newLine (level + 1) ++ printString name ++
      ':' :: ' ' :: (layout (level + 1) j ++ layoutMembers level ms))
end

def compact (j : Json) : String := String.ofList j.print

def pretty (j : Json) : String := String.ofList (layout 0 j)

end RemoteQuery.Json
